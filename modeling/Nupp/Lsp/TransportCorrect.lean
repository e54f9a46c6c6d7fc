import Mathlib.Data.List.Induction
import Nupp.Lsp.Transport

/-! Feeding a stream in chunks is feeding it whole, and what a stream is read as is what its
frames say unless a frame can be taken for the transport's own. -/

namespace Nupp.lsp.transport

section Cut

theorem findBlank_split {s header rest : List Char} (h : findBlank s = some (header, rest)) :
    s = header ++ blankLine ++ rest := by
  induction s generalizing header rest with
  | nil => simp [findBlank] at h
  | cons c cs ih =>
    rw [findBlank] at h
    by_cases hblank : blankLine <+: c :: cs
    · rw [if_pos hblank, Option.some.injEq, Prod.mk.injEq] at h
      obtain ⟨after, hafter⟩ := hblank
      rw [← h.1, ← h.2, ← hafter]
      rfl
    · rw [if_neg hblank] at h
      obtain ⟨⟨header', rest'⟩, hfound, hsame⟩ := Option.map_eq_some_iff.mp h
      rw [Prod.mk.injEq] at hsame
      rw [← hsame.1, ← hsame.2]
      exact congrArg (c :: ·) (ih hfound)

theorem findBlank_append {s header rest : List Char} (h : findBlank s = some (header, rest))
    (more : List Char) : findBlank (s ++ more) = some (header, rest ++ more) := by
  induction s generalizing header rest with
  | nil => simp [findBlank] at h
  | cons c cs ih =>
    have hlength : 4 ≤ (c :: cs).length := by
      rw [findBlank_split h]
      simp [blankLine]
      omega
    rw [findBlank] at h
    rw [List.cons_append, findBlank]
    by_cases hblank : blankLine <+: c :: cs
    · have hlonger : blankLine <+: c :: (cs ++ more) := hblank.trans (List.prefix_append _ more)
      rw [if_pos hblank, Option.some.injEq, Prod.mk.injEq] at h
      rw [if_pos hlonger, ← h.1, ← h.2, ← List.cons_append, List.drop_append_of_le_length hlength]
    · have hlonger : ¬blankLine <+: c :: (cs ++ more) := fun hlonger => hblank
        (List.prefix_of_prefix_length_le hlonger (List.prefix_append (c :: cs) more) hlength)
      rw [if_neg hblank] at h
      obtain ⟨⟨header', rest'⟩, hfound, hsame⟩ := Option.map_eq_some_iff.mp h
      rw [Prod.mk.injEq] at hsame
      rw [if_neg hlonger, ih hfound, Option.map_some]
      exact congrArg some (Prod.ext hsame.1 (congrArg (· ++ more) hsame.2))

theorem cut_append {tooLong : List Char → Bool} {s rest : List Char} {piece : Piece}
    (h : cut tooLong s = .piece piece rest) (more : List Char) :
    cut tooLong (s ++ more) = .piece piece (rest ++ more) := by
  unfold cut at h ⊢
  cases hblank : findBlank s with
  | none => simp [hblank] at h
  | some found =>
    obtain ⟨header, after⟩ := found
    rw [findBlank_append hblank]
    simp only [hblank] at h ⊢
    cases hdigits : matchLength header with
    | none =>
      simp only [hdigits, Cut.piece.injEq] at h ⊢
      exact ⟨h.1, by rw [h.2]⟩
    | some digits =>
      simp only [hdigits] at h ⊢
      split at h
      · exact absurd h (by simp)
      · next hshort =>
        rw [if_neg hshort]
        split at h
        · exact absurd h (by simp)
        · next henough =>
          have hle : tonumber digits ≤ after.length := Nat.le_of_not_lt henough
          have hle' : ¬(after ++ more).length < tonumber digits := by
            rw [List.length_append]
            omega
          simp only [Cut.piece.injEq] at h
          rw [if_neg hle', List.take_append_of_le_length hle, List.drop_append_of_le_length hle,
            h.1, h.2]

theorem cut_length {tooLong : List Char → Bool} {s rest : List Char} {piece : Piece}
    (h : cut tooLong s = .piece piece rest) : rest.length < s.length := by
  unfold cut at h
  cases hblank : findBlank s with
  | none => simp [hblank] at h
  | some found =>
    obtain ⟨header, after⟩ := found
    have hsplit := congrArg List.length (findBlank_split hblank)
    have hfour : blankLine.length = 4 := rfl
    rw [List.length_append, List.length_append, hfour] at hsplit
    simp only [hblank] at h
    cases hdigits : matchLength header with
    | none =>
      simp only [hdigits, Cut.piece.injEq] at h
      rw [← h.2]
      omega
    | some digits =>
      simp only [hdigits] at h
      split at h
      · exact absurd h (by simp)
      split at h
      · exact absurd h (by simp)
      · simp only [Cut.piece.injEq] at h
        rw [← h.2, List.length_drop]
        omega

end Cut

section Pieces

variable {tooLong : List Char → Bool}

/-- The complete frames at the front of a stream, and what is left behind them. -/
def pieces (tooLong : List Char → Bool) : ℕ → List Char → List Piece × List Char
  | 0, s => ([], s)
  | frames + 1, s =>
    match cut tooLong s with
    | .piece piece rest =>
      (piece :: (pieces tooLong frames rest).1, (pieces tooLong frames rest).2)
    | _ => ([], s)

theorem pieces_cons {frames : ℕ} {s rest : List Char} {piece : Piece}
    (h : cut tooLong s = .piece piece rest) :
    pieces tooLong (frames + 1) s =
      (piece :: (pieces tooLong frames rest).1, (pieces tooLong frames rest).2) := by
  simp only [pieces, h]

theorem pieces_nil {frames : ℕ} {s : List Char}
    (h : ∀ piece rest, cut tooLong s ≠ .piece piece rest) : pieces tooLong frames s = ([], s) := by
  cases frames with
  | zero => rfl
  | succ frames =>
    simp only [pieces]

theorem pieces_enough {frames more : ℕ} {s : List Char} (hframes : s.length < frames)
    (hmore : s.length < more) : pieces tooLong frames s = pieces tooLong more s := by
  induction frames generalizing more s with
  | zero => omega
  | succ frames ih =>
    obtain ⟨more, rfl⟩ := Nat.exists_eq_succ_of_ne_zero (Nat.ne_zero_of_lt hmore)
    by_cases hpiece : ∃ piece rest, cut tooLong s = .piece piece rest
    · obtain ⟨piece, rest, hcut⟩ := hpiece
      have hlength := cut_length hcut
      have hsame := @ih more rest (by omega) (by omega)
      rw [pieces_cons hcut, pieces_cons hcut, hsame]
    · have hnone : ∀ piece rest, cut tooLong s ≠ .piece piece rest :=
        fun piece rest hcut => hpiece ⟨piece, rest, hcut⟩
      rw [pieces_nil hnone, pieces_nil hnone]

def splitFrames (tooLong : List Char → Bool) (s : List Char) : List Piece × List Char :=
  pieces tooLong (s.length + 1) s

theorem splitFrames_cons {s rest : List Char} {piece : Piece} (h : cut tooLong s = .piece piece rest) :
    splitFrames tooLong s = (piece :: (splitFrames tooLong rest).1, (splitFrames tooLong rest).2) := by
  have hlength := cut_length h
  rw [splitFrames, pieces_cons h, splitFrames, pieces_enough hlength (Nat.lt_succ_self rest.length)]

theorem splitFrames_nil {s : List Char} (h : ∀ piece rest, cut tooLong s ≠ .piece piece rest) :
    splitFrames tooLong s = ([], s) := pieces_nil h

/-- The frames of a longer stream are those of the shorter one and then those of what it
left. -/
theorem splitFrames_append (s more : List Char) :
    splitFrames tooLong (s ++ more) =
      ((splitFrames tooLong s).1 ++ (splitFrames tooLong ((splitFrames tooLong s).2 ++ more)).1,
        (splitFrames tooLong ((splitFrames tooLong s).2 ++ more)).2) := by
  induction hlength : s.length using Nat.strongRecOn generalizing s with
  | ind length ih =>
    by_cases hpiece : ∃ piece rest, cut tooLong s = .piece piece rest
    · obtain ⟨piece, rest, hcut⟩ := hpiece
      have hrest := ih rest.length (hlength ▸ cut_length hcut) rest rfl
      rw [splitFrames_cons (cut_append hcut more), splitFrames_cons hcut, hrest]
      rfl
    · rw [splitFrames_nil fun piece rest hcut => hpiece ⟨piece, rest, hcut⟩]
      rfl

end Pieces

section Feed

variable {N : Type} [IntCast N] (decode : List Char → Option (Value N))
  (number : List Char → Option N) (greater : N → N → Bool)

def absorb (transport : Transport N) (pieces : List Piece) : Transport N :=
  pieces.foldl (fun transport piece => receive number greater transport (frameValue decode piece))
    transport

omit [IntCast N] in
theorem receive_buffered (transport : Transport N) (buffered : List Char) (message : Value N) :
    receive number greater { transport with buffered := buffered } message =
      { receive number greater transport message with buffered := buffered } := by
  unfold receive note
  split
  · rfl
  split
  · split
    · split <;> rfl
    · rfl
  · rfl

theorem absorb_buffered (transport : Transport N) (buffered : List Char) (ps : List Piece) :
    absorb decode number greater { transport with buffered := buffered } ps =
      { absorb decode number greater transport ps with buffered := buffered } := by
  induction ps generalizing transport with
  | nil => rfl
  | cons piece ps ih =>
    simp only [absorb, List.foldl_cons] at ih ⊢
    rw [receive_buffered, ih]

theorem feedLoop_eq (frames : ℕ) (transport : Transport N) :
    (feedLoop decode number greater frames transport).1 =
      { absorb decode number greater transport (pieces tooLong frames transport.buffered).1 with
        buffered := (pieces tooLong frames transport.buffered).2 } := by
  induction frames generalizing transport with
  | zero => rfl
  | succ frames ih =>
    cases hcut : cut tooLong transport.buffered with
    | incomplete => simp only [feedLoop, hcut, pieces]; rfl
    | fatal digits => simp only [feedLoop, hcut, pieces]; rfl
    | piece piece rest =>
      have hbuffered : (receive number greater { transport with buffered := rest }
          (frameValue decode piece)).buffered = rest := by
        rw [receive_buffered]
      simp only [feedLoop, hcut, pieces_cons hcut]
      rw [ih, hbuffered, receive_buffered, absorb_buffered]
      rfl

theorem feed_eq (transport : Transport N) (chunk : List Char) :
    (feed decode number greater transport chunk).1 =
      { absorb decode number greater transport
          (splitFrames tooLong (transport.buffered ++ chunk)).1 with
        buffered := (splitFrames tooLong (transport.buffered ++ chunk)).2 } := by
  rw [feed, feedLoop_eq, absorb_buffered]
  rfl

/-- However a stream is cut into chunks, its frames are absorbed in order. -/
theorem feedAll_eq (chunks : List (List Char)) :
    feedAll decode number greater chunks =
      { absorb decode number greater {} (splitFrames tooLong chunks.flatten).1 with
        buffered := (splitFrames tooLong chunks.flatten).2 } := by
  induction chunks using List.reverseRecOn with
  | nil => rfl
  | append_singleton chunks chunk ih =>
    have hlast : feedAll decode number greater (chunks ++ [chunk]) =
        (feed decode number greater (feedAll decode number greater chunks) chunk).1 := by
      simp [feedAll]
    rw [hlast, feed_eq, ih, absorb_buffered]
    simp only [List.flatten_append, List.flatten_cons, List.flatten_nil, List.append_nil]
    rw [splitFrames_append chunks.flatten chunk]
    simp only [absorb, List.foldl_append]

end Feed

section Meaning

variable {N : Type}

/-- What a complete frame is: one that is answered with an error, or a message. -/
inductive Meaning (N : Type) where
  | malformed (code : ℤ) (text : String)
  | message (value : Value N)

/-- An object with a method or an id. -/
def isMessage (value : Value N) : Bool :=
  (value.member "method").isSome || (value.member "id").isSome

def meaning (decode : List Char → Option (Value N)) : Piece → Meaning N
  | .headless => .malformed (-32700) "frame has no Content-Length"
  | .body _ bytes =>
    match decode bytes with
    | none => .malformed (-32700) "frame body is not JSON"
    | some value =>
      if isMessage value then
        .message value
      else
        .malformed (-32600) "frame body is not a request or notification"

/-- What the server does with an entry of the queue: it answers one with an error, and
dispatches the other. -/
inductive Entry (N : Type) where
  | answer (code text : Option (Value N))
  | dispatch (message : Value N)

structure View (N : Type) where
  buffered : List Char
  queue : List (Entry N) := []
  cancelled : List (Value N) := []
  versions : List Char → Option N := fun _ => none

def entry (value : Value N) : Entry N :=
  if Value.truthy (value.member "malformed") then
    .answer (value.member "code") (value.member "message")
  else
    .dispatch value

def Transport.view (transport : Transport N) : View N :=
  ⟨transport.buffered, transport.queued.map entry, transport.cancelled, transport.versions⟩

variable [IntCast N]

/-- A cancellation is recorded; anything else records the version it names and is queued. -/
def View.note (number : List Char → Option N) (greater : N → N → Bool) (view : View N) :
    Meaning N → View N
  | .malformed code text =>
    { view with
      queue := view.queue ++ [.answer (some (.number (code : N))) (some (.string text.toList))] }
  | .message value =>
    if Value.isString "$/cancelRequest" (value.member "method") then
      match (value.member "params").bind (Value.member "id") with
      | some id =>
        if id.isNull then view else { view with cancelled := view.cancelled ++ [id] }
      | none => view
    else
      { view with
        versions := recordVersion greater view.versions (documentVersion number value)
        queue := view.queue ++ [.dispatch value] }

def oversized (digits : List Char) : Bool := tonumber digits > MAX_FRAME

/-- What a stream says, frame by frame, up to the first that declares too much. -/
def meant (decode : List Char → Option (Value N)) (number : List Char → Option N)
    (greater : N → N → Bool) (stream : List Char) : View N :=
  (splitFrames oversized stream).1.foldl
    (fun view piece => view.note number greater (meaning decode piece))
    { buffered := (splitFrames oversized stream).2 }

/-- A frame that the transport takes for what it is: its length is written in at most twelve
digits, and a message in it has no member that marks it as malformed. -/
def Plain (decode : List Char → Option (Value N)) : Piece → Prop
  | .headless => True
  | .body digits bytes => digits.length ≤ 12 ∧
    ∀ value, decode bytes = some value → isMessage value = true →
      Value.truthy (value.member "malformed") = false

end Meaning

section Faithful

variable {N : Type} [IntCast N] (decode : List Char → Option (Value N))
  (number : List Char → Option N) (greater : N → N → Bool)

/-- A stream fed in any chunks leaves what it leaves when fed whole, and that is what its
frames say. -/
def Faithful (stream : List Char) : Prop :=
  (∀ chunks : List (List Char), chunks.flatten = stream →
    (feedAll decode number greater chunks).view =
      (feedAll decode number greater [stream]).view) ∧
  (feedAll decode number greater [stream]).view = meant decode number greater stream

theorem frameValue_message {digits bytes : List Char} {value : Value N}
    (hdecode : decode bytes = some value) (hmessage : isMessage value = true) :
    frameValue decode (.body digits bytes) = value := by
  have htable : value.isTable = true := by
    cases value <;> simp_all [isMessage, Value.member, Value.isTable]
  have hmembers : ((value.member "method").isNone && (value.member "id").isNone) = false := by
    cases hmethod : value.member "method" <;> cases hid : value.member "id" <;>
      simp_all [isMessage]
  simp only [frameValue, hdecode, htable, hmembers, Bool.not_true, Bool.false_or,
    Bool.false_eq_true, if_false]

theorem frameValue_other {digits bytes : List Char} {value : Value N}
    (hdecode : decode bytes = some value) (hmessage : isMessage value = false) :
    frameValue decode (.body digits bytes) =
      malformed (-32600) "frame body is not a request or notification" := by
  have hmembers : ((value.member "method").isNone && (value.member "id").isNone) = true := by
    cases hmethod : value.member "method" <;> cases hid : value.member "id" <;>
      simp_all [isMessage]
  simp only [frameValue, hdecode, hmembers, Bool.or_true, if_true]

omit [IntCast N] in
theorem member_first {name : String} {value : Value N} (members : List (List Char × Value N)) :
    (Value.object ((name.toList, value) :: members)).member name = some value := by
  simp [Value.member]

omit [IntCast N] in
theorem member_later {name other : String} {value : Value N} (members : List (List Char × Value N))
    (h : name ≠ other) :
    (Value.object ((other.toList, value) :: members)).member name =
      (Value.object members).member name := by
  have hne : (name.toList == other.toList) = false := by
    rw [beq_eq_false_iff_ne]
    exact fun hsame => h (String.toList_injective hsame)
  simp [Value.member, List.lookup_cons, hne]

theorem malformed_marked (code : ℤ) (text : String) :
    Value.truthy ((malformed code text : Value N).member "malformed") = true := by
  rw [malformed, member_first]
  rfl

theorem entry_malformed (code : ℤ) (text : String) :
    entry (malformed code text : Value N) =
      .answer (some (.number (code : N))) (some (.string text.toList)) := by
  have hcode : (malformed code text : Value N).member "code" = some (.number (code : N)) := by
    rw [malformed, member_later _ (by decide), member_first]
  have htext : (malformed code text : Value N).member "message" =
      some (.string text.toList) := by
    rw [malformed, member_later _ (by decide), member_later _ (by decide), member_first]
  rw [entry, if_pos (malformed_marked code text), hcode, htext]

theorem receive_malformed (transport : Transport N) (code : ℤ) (text : String) :
    (receive number greater transport (malformed code text)).view =
      transport.view.note number greater (.malformed code text) := by
  rw [receive, if_pos (malformed_marked code text)]
  simp only [Transport.view, View.note, List.map_append, List.map_cons, List.map_nil,
    entry_malformed]

theorem receive_message (transport : Transport N) {value : Value N}
    (h : Value.truthy (value.member "malformed") = false) :
    (receive number greater transport value).view =
      transport.view.note number greater (.message value) := by
  have hentry : entry value = .dispatch value := by simp [entry, h]
  simp only [receive, h, Bool.false_eq_true, if_false, note, View.note]
  split
  · cases (value.member "params").bind (Value.member "id") with
    | none => rfl
    | some id =>
      simp only
      split <;> rfl
  · simp only [Transport.view, List.map_append, List.map_cons, List.map_nil, hentry]

/-- A frame that is plain is received as what it means. -/
theorem receive_plain (transport : Transport N) {piece : Piece} (h : Plain decode piece) :
    (receive number greater transport (frameValue decode piece)).view =
      transport.view.note number greater (meaning decode piece) := by
  cases piece with
  | headless => exact receive_malformed number greater transport _ _
  | body digits bytes =>
    cases hdecode : decode bytes with
    | none =>
      simp only [frameValue, meaning, hdecode]
      exact receive_malformed number greater transport _ _
    | some value =>
      cases hmessage : isMessage value with
      | false =>
        rw [frameValue_other decode hdecode hmessage]
        simp only [meaning, hdecode, hmessage, Bool.false_eq_true, if_false]
        exact receive_malformed number greater transport _ _
      | true =>
        rw [frameValue_message decode hdecode hmessage]
        simp only [meaning, hdecode, hmessage, if_true]
        exact receive_message number greater transport (h.2 value hdecode hmessage)

theorem absorb_plain (transport : Transport N) {ps : List Piece}
    (h : ∀ piece ∈ ps, Plain decode piece) :
    (absorb decode number greater transport ps).view =
      ps.foldl (fun view piece => view.note number greater (meaning decode piece))
        transport.view := by
  induction ps generalizing transport with
  | nil => rfl
  | cons piece ps ih =>
    have hfirst := receive_plain decode number greater transport (h piece List.mem_cons_self)
    have hrest := ih (receive number greater transport (frameValue decode piece))
      fun other hother => h other (List.mem_cons_of_mem _ hother)
    rw [List.foldl_cons, ← hfirst, ← hrest]
    rfl

section Answers

def Entry.isAnswer : Entry N → Bool
  | .answer .. => true
  | .dispatch .. => false

def View.answers (view : View N) : ℕ := view.queue.countP Entry.isAnswer

/-- A message that is marked as malformed. -/
def marked (decode : List Char → Option (Value N)) (piece : Piece) : Bool :=
  match meaning decode piece with
  | .malformed .. => false
  | .message value => Value.truthy (value.member "malformed")

theorem note_answers_message (view : View N) (value : Value N) :
    (view.note number greater (.message value)).answers = view.answers := by
  simp only [View.note]
  split
  · split
    · split <;> rfl
    · rfl
  · simp [View.answers, Entry.isAnswer]

theorem note_answers_malformed (view : View N) (code : ℤ) (text : String) :
    (view.note number greater (.malformed code text)).answers = view.answers + 1 := by
  simp [View.note, View.answers, Entry.isAnswer]

/-- A marked message is answered with an error, though it is none. -/
theorem receive_answers (transport : Transport N) (view : View N) (piece : Piece)
    (hle : view.answers ≤ transport.view.answers) :
    (view.note number greater (meaning decode piece)).answers +
        (if marked decode piece then 1 else 0) + (transport.view.answers - view.answers) =
      (receive number greater transport (frameValue decode piece)).view.answers := by
  have hmalformed (code : ℤ) (text : String) (hvalue : frameValue decode piece =
      malformed code text) (hmeaning : meaning decode piece = .malformed code text) :
      (view.note number greater (meaning decode piece)).answers +
          (if marked decode piece then 1 else 0) + (transport.view.answers - view.answers) =
        (receive number greater transport (frameValue decode piece)).view.answers := by
    have hunmarked : marked decode piece = false := by simp only [marked, hmeaning]
    rw [hvalue, hmeaning, receive_malformed, note_answers_malformed, note_answers_malformed,
      hunmarked]
    simp only [Bool.false_eq_true, if_false]
    omega
  cases piece with
  | headless => exact hmalformed _ _ rfl rfl
  | body digits bytes =>
    cases hdecode : decode bytes with
    | none =>
      have hvalue : frameValue decode (.body digits bytes) =
          malformed (-32700) "frame body is not JSON" := by simp only [frameValue, hdecode]
      exact hmalformed _ _ hvalue (by simp only [meaning, hdecode])
    | some value =>
      cases hmessage : isMessage value with
      | false =>
        have hmeaning : meaning decode (.body digits bytes) =
            .malformed (-32600) "frame body is not a request or notification" := by
          simp only [meaning, hdecode, hmessage, Bool.false_eq_true, if_false]
        exact hmalformed _ _ (frameValue_other decode hdecode hmessage) hmeaning
      | true =>
        have hmeaning : meaning decode (.body digits bytes) = .message value := by
          simp only [meaning, hdecode, hmessage, if_true]
        have hsame : marked decode (.body digits bytes) =
            Value.truthy (value.member "malformed") := by
          rw [marked, hmeaning]
        rw [frameValue_message decode hdecode hmessage, hmeaning, note_answers_message, hsame]
        cases htruthy : Value.truthy (value.member "malformed") with
        | false =>
          rw [receive_message number greater transport htruthy, note_answers_message]
          simp only [Bool.false_eq_true, if_false]
          omega
        | true =>
          have hanswer : (receive number greater transport value).view.answers =
              transport.view.answers + 1 := by
            rw [receive, if_pos htruthy]
            simp [Transport.view, View.answers, entry, htruthy, Entry.isAnswer]
          rw [hanswer]
          simp only [if_true]
          omega

theorem absorb_answers (transport : Transport N) (view : View N) (ps : List Piece)
    (hle : view.answers ≤ transport.view.answers) :
    (ps.foldl (fun view piece => view.note number greater (meaning decode piece)) view).answers +
        ps.countP (marked decode) + (transport.view.answers - view.answers) =
      (absorb decode number greater transport ps).view.answers := by
  induction ps generalizing transport view with
  | nil =>
    simp only [List.foldl_nil, List.countP_nil, absorb]
    omega
  | cons piece ps ih =>
    have hstep := receive_answers decode number greater transport view piece hle
    have hrest := ih (receive number greater transport (frameValue decode piece))
      (view.note number greater (meaning decode piece)) (by omega)
    rw [List.foldl_cons, List.countP_cons]
    have habsorb : absorb decode number greater transport (piece :: ps) =
        absorb decode number greater
          (receive number greater transport (frameValue decode piece)) ps := rfl
    rw [habsorb, ← hrest]
    omega

end Answers

section Length

/-- Every length is written in at most twelve digits. -/
def Short : Piece → Prop
  | .headless => True
  | .body digits _ => digits.length ≤ 12

theorem cut_tooLong {s rest : List Char} {piece : Piece}
    (h : cut tooLong s = .piece piece rest) :
    cut oversized s = .piece piece rest ∧ Short piece := by
  unfold cut at h ⊢
  cases hblank : findBlank s with
  | none => simp [hblank] at h
  | some found =>
    obtain ⟨header, after⟩ := found
    simp only [hblank] at h ⊢
    cases hdigits : matchLength header with
    | none =>
      simp only [hdigits, Cut.piece.injEq] at h ⊢
      exact ⟨h, h.1 ▸ trivial⟩
    | some digits =>
      simp only [hdigits] at h ⊢
      split at h
      · exact absurd h (by simp)
      · next hlong =>
        have hboth : digits.length ≤ 12 ∧ tonumber digits ≤ MAX_FRAME := by
          simpa [tooLong] using hlong
        have hsize : ¬oversized digits = true := by
          simpa [oversized] using hboth.2
        rw [if_neg hsize]
        refine ⟨h, ?_⟩
        split at h
        · exact absurd h (by simp)
        · simp only [Cut.piece.injEq] at h
          rw [← h.1]
          exact hboth.1

theorem cut_oversized {s rest : List Char} {piece : Piece}
    (h : cut oversized s = .piece piece rest) (hshort : Short piece) :
    cut tooLong s = .piece piece rest := by
  unfold cut at h ⊢
  cases hblank : findBlank s with
  | none => simp [hblank] at h
  | some found =>
    obtain ⟨header, after⟩ := found
    simp only [hblank] at h ⊢
    cases hdigits : matchLength header with
    | none => simpa only [hdigits] using h
    | some digits =>
      simp only [hdigits] at h ⊢
      split at h
      · exact absurd h (by simp)
      · next hsize =>
        split at h
        · exact absurd h (by simp)
        · next henough =>
          simp only [Cut.piece.injEq] at h
          rw [← h.1] at hshort
          have hlong : ¬tooLong digits = true := by
            have hle : tonumber digits ≤ MAX_FRAME := by simpa [oversized] using hsize
            have hdigits' : digits.length ≤ 12 := hshort
            simp [tooLong, hle, hdigits']
          rw [if_neg hlong, if_neg henough, h.1, h.2]

/-- What the transport leaves is never shorter than what the frames leave, and as long only
when every length is short. -/
theorem splitFrames_length (s : List Char) :
    (splitFrames tooLong s).2.length ≤ s.length ∧
      (splitFrames oversized s).2.length ≤ (splitFrames tooLong s).2.length ∧
      ((∀ piece ∈ (splitFrames oversized s).1, Short piece) →
        splitFrames tooLong s = splitFrames oversized s) ∧
      ((splitFrames oversized s).2.length = (splitFrames tooLong s).2.length →
        ∀ piece ∈ (splitFrames oversized s).1, Short piece) := by
  induction hlength : s.length using Nat.strongRecOn generalizing s with
  | ind length ih =>
    by_cases hpiece : ∃ piece rest, cut oversized s = .piece piece rest
    · obtain ⟨piece, rest, hcut⟩ := hpiece
      have hshorter := cut_length hcut
      obtain ⟨hle, hle', hsame, hconverse⟩ := ih rest.length (hlength ▸ hshorter) rest rfl
      rw [splitFrames_cons hcut]
      by_cases hshort : Short piece
      · rw [splitFrames_cons (cut_oversized hcut hshort)]
        refine ⟨by simp only; omega, hle', fun hall => ?_, fun heq other hother => ?_⟩
        · rw [hsame fun other hother => hall other (List.mem_cons_of_mem _ hother)]
        · rcases List.mem_cons.mp hother with rfl | hother
          · exact hshort
          · exact hconverse heq other hother
      · have hnone : ∀ other left, cut tooLong s ≠ .piece other left := by
          intro other left hother
          obtain ⟨hcut', hshort'⟩ := cut_tooLong hother
          rw [hcut] at hcut'
          simp only [Cut.piece.injEq] at hcut'
          exact hshort (hcut'.1 ▸ hshort')
        rw [splitFrames_nil hnone]
        refine ⟨by simp only; omega, by simp only; omega, fun hall => ?_, fun heq => ?_⟩
        · exact absurd (hall piece List.mem_cons_self) hshort
        · simp only at heq
          omega
    · have hnone : ∀ piece rest, cut oversized s ≠ .piece piece rest :=
        fun piece rest hcut => hpiece ⟨piece, rest, hcut⟩
      have hnone' : ∀ piece rest, cut tooLong s ≠ .piece piece rest :=
        fun piece rest hcut => hnone piece rest (cut_tooLong hcut).1
      rw [splitFrames_nil hnone, splitFrames_nil hnone']
      exact ⟨Nat.le_of_eq hlength, Nat.le_refl _, fun _ => rfl, by simp⟩

end Length

theorem feed_whole (stream : List Char) :
    (feedAll decode number greater [stream]).view =
      { (absorb decode number greater {} (splitFrames tooLong stream).1).view with
        buffered := (splitFrames tooLong stream).2 } := by
  rw [feedAll_eq]
  simp only [List.flatten_cons, List.flatten_nil, List.append_nil]
  rfl

theorem fold_buffered (view : View N) (buffered : List Char) (ps : List Piece) :
    ps.foldl (fun view piece => view.note number greater (meaning decode piece))
        { view with buffered := buffered } =
      { ps.foldl (fun view piece => view.note number greater (meaning decode piece)) view with
        buffered := buffered } := by
  induction ps generalizing view with
  | nil => rfl
  | cons piece ps ih =>
    have hnote : ({ view with buffered := buffered } : View N).note number greater
        (meaning decode piece) =
          { view.note number greater (meaning decode piece) with buffered := buffered } := by
      cases meaning decode piece with
      | malformed code text => rfl
      | message value =>
        simp only [View.note]
        split
        · cases (value.member "params").bind (Value.member "id") with
          | none => rfl
          | some id =>
            simp only
            split <;> rfl
        · rfl
    rw [List.foldl_cons, hnote, ih]
    rfl

omit [IntCast N] in
theorem plain_iff {piece : Piece} :
    Plain decode piece ↔ Short piece ∧ marked decode piece = false := by
  cases piece with
  | headless => exact ⟨fun _ => ⟨trivial, rfl⟩, fun _ => trivial⟩
  | body digits bytes =>
    simp only [Plain, Short, marked, meaning]
    refine and_congr_right fun _ => ?_
    cases hdecode : decode bytes with
    | none => simp
    | some value => cases hmessage : isMessage value <;> simp [hmessage]

/-- A stream is read as what its frames say, however it is cut, exactly when every frame
before the first that declares too much is plain. -/
theorem framing_faithful_iff (stream : List Char) :
    Faithful decode number greater stream ↔
      ∀ piece ∈ (splitFrames oversized stream).1, Plain decode piece := by
  obtain ⟨-, -, hsplit, hlength⟩ := splitFrames_length stream
  constructor
  · rintro ⟨-, hmeant⟩
    have hbuffered : (splitFrames tooLong stream).2 = (splitFrames oversized stream).2 := by
      have hleft := congrArg View.buffered hmeant
      rw [feed_whole, meant, fold_buffered decode number greater { buffered := [] }] at hleft
      exact hleft
    have hshort := hlength (congrArg List.length hbuffered).symm
    have hsame := hsplit hshort
    have hanswers := absorb_answers decode number greater {}
      { buffered := (splitFrames oversized stream).2 } (splitFrames oversized stream).1 (Nat.le_refl _)
    have hcount := congrArg View.answers hmeant
    rw [feed_whole, hsame, meant] at hcount
    have hleft : (absorb decode number greater {} (splitFrames oversized stream).1).view.answers =
        View.answers { (absorb decode number greater {}
            (splitFrames oversized stream).1).view with
          buffered := (splitFrames oversized stream).2 } := rfl
    have hnone : (splitFrames oversized stream).1.countP (marked decode) = 0 := by omega
    intro piece hpiece
    have hunmarked := List.countP_eq_zero.mp hnone piece hpiece
    exact (plain_iff decode).mpr ⟨hshort piece hpiece, by simpa using hunmarked⟩
  · intro hplain
    have hshort : ∀ piece ∈ (splitFrames oversized stream).1, Short piece :=
      fun piece hpiece => ((plain_iff decode).mp (hplain piece hpiece)).1
    constructor
    · intro chunks hchunks
      rw [feedAll_eq, feedAll_eq, hchunks, List.flatten_singleton]
    · have hplain' : ∀ piece ∈ (splitFrames tooLong stream).1, Plain decode piece := by
        rw [hsplit hshort]
        exact hplain
      rw [feed_whole, absorb_plain decode number greater {} hplain', hsplit hshort, meant,
        fold_buffered decode number greater { buffered := [] }]
      rfl

end Faithful

section Marked

def markedText : List Char :=
  "\x7b\"method\":\"$/cancelRequest\",\"params\":\x7b\"id\":1\x7d,\"malformed\":true\x7d".toList

def markedStream : List Char := "Content-Length: 63\r\n\r\n".toList ++ markedText

def decodeMarked (text : List Char) : Option (Value ℤ) :=
  if text = markedText then
    some (.object [("method".toList, .string "$/cancelRequest".toList),
      ("params".toList, .object [("id".toList, .number 1)]),
      ("malformed".toList, .boolean true)])
  else
    none

def greaterInt (a b : ℤ) : Bool := b < a

set_option maxRecDepth 10000 in
/-- A cancellation that carries a member `malformed` is not recorded. -/
theorem framing_not_faithful :
    ¬Faithful decodeMarked (fun _ => none) greaterInt markedStream ∧
      (feedAll decodeMarked (fun _ => none) greaterInt [markedStream]).cancelled.length = 0 ∧
      (meant decodeMarked (fun _ => none) greaterInt markedStream).cancelled.length = 1 := by
  have hleft : (feedAll decodeMarked (fun _ => none) greaterInt
      [markedStream]).view.cancelled.length = 0 := by decide
  have hright : (meant decodeMarked (fun _ => none) greaterInt
      markedStream).cancelled.length = 1 := by decide
  refine ⟨fun hfaithful => ?_, hleft, hright⟩
  rw [hfaithful.2, hright] at hleft
  exact absurd hleft (by decide)

end Marked

end Nupp.lsp.transport
