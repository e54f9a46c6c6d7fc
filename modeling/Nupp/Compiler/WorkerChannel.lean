import Mathlib.Data.Rat.Floor
import Nupp.Lua.Data

/-! `compiler/workerchannel`: frames of a length and a payload, cut out of the chunks that a worker's
output arrives in. What the worker and the caller's hooks do meanwhile is a list of turns. -/

namespace Nupp.workerchannel

open Decimal Nupp.Data

def MAX_HEADER_BYTES : ℕ := 20

inductive Kind
  | stopped | ended | timeout | cancelled | oversize | invalid

structure Failure where
  kind : Kind
  said : Bytes

structure Channel where
  maxFrame : ℕ
  maxSaid : ℕ
  waitMs : ℤ
  head : Bytes
  chunks : List Bytes
  have' : ℕ
  expected : Option ℕ
  said : Bytes
  received : ℕ

/-- `workerchannel.open` -/
def Channel.open' (maxFrame maxSaid : ℕ) (waitMs : ℤ) : Channel :=
  { maxFrame, maxSaid, waitMs, head := [], chunks := [], have' := 0, expected := none, said := [],
    received := 0 }

/-- A payload is a string, which is shorter than two gigabytes. -/
structure Payload where
  bytes : Bytes
  short : bytes.length < 2 ^ 31

def frame (payload : Payload) : Bytes := numeral payload.bytes.length ++ 10 :: payload.bytes

section Receiving

/-- What one wait for output comes across. -/
structure Turn where
  cancelled : Bool
  now : ℚ
  poll : ℤ → Option Bytes × Bool
  isrunning : Bool
  last : Option Bytes

/-- The waits to come, and what each further look at the standard error finds. -/
structure World where
  turns : List Turn
  stderr : List (List Bytes)

/-- Keeps what was said up to the channel's bound. -/
def keep (ch : Channel) (chunk : Bytes) : Channel :=
  { ch with said := ch.said ++ chunk.take (ch.maxSaid - ch.said.length) }

def drain (ch : Channel) : List (List Bytes) → Channel × List (List Bytes)
  | [] => (ch, [])
  | found :: stderr => (found.foldl keep ch, stderr)

/-- `digits:match("^%d+$") and tonumber(digits)` -/
def lengthOf (digits : Bytes) : Option ℕ :=
  if digits ≠ [] ∧ digits.all isDigit then some (value digits) else none

/-- Moves a complete header out of `head`. -/
def takeHeader (ch : Channel) : Except Kind Channel :=
  match ch.head.dropWhile (· != 10) with
  | [] => if MAX_HEADER_BYTES < ch.head.length then .error .invalid else .ok ch
  | _ :: rest =>
    match lengthOf (ch.head.takeWhile (· != 10)) with
    | none => .error .invalid
    | some length =>
      if ch.maxFrame < length then .error .oversize
      else
        .ok { ch with
          head := []
          expected := some length
          chunks := if rest ≠ [] then [rest] else []
          have' := rest.length }

/-- A channel before it waits: with the body complete, or not yet. -/
inductive Ready
  | failed (kind : Kind)
  | answered (payload : Bytes) (ch : Channel)
  | waiting (ch : Channel)

def answer (ch : Channel) (expected : ℕ) : Ready :=
  let body := ch.chunks.flatten
  let long := expected < body.length
  .answered (if long then body.take expected else body)
    { ch with
      head := if long then body.drop expected else ch.head
      expected := none
      chunks := []
      have' := 0
      received := ch.received + expected }

def ready (ch : Channel) : Ready :=
  match if ch.expected.isNone then takeHeader ch else .ok ch with
  | .error kind => .failed kind
  | .ok ch =>
    match ch.expected with
    | some expected => if expected ≤ ch.have' then answer ch expected else .waiting ch
    | none => .waiting ch

/-- A chunk goes to the body once the header is read, and to the header before. -/
def push (ch : Channel) (chunk : Bytes) : Channel :=
  if ch.expected.isSome then
    { ch with chunks := ch.chunks ++ [chunk], have' := ch.have' + chunk.length }
  else { ch with head := ch.head ++ chunk }

/-- An answer, the channel and what is left of the world; nothing when the world ends first. -/
abbrev Received := Option (Except Failure Bytes × Channel × World)

def failure (ch : Channel) (kind : Kind) (world : World) : Received :=
  let (ch, stderr) := drain ch world.stderr
  some (.error ⟨kind, ch.said⟩, ch, ⟨world.turns, stderr⟩)

def wait (ch : Channel) (deadline now : ℚ) : ℤ := max 1 (min ch.waitMs ⌊deadline - now⌋)

def receiveFrom (deadline : ℚ) (ch : Channel) (turns : List Turn) (stderr : List (List Bytes)) :
    Received :=
  match ready ch with
  | .failed kind => failure ch kind ⟨turns, stderr⟩
  | .answered payload ch =>
    let (ch, stderr) := drain ch stderr
    some (.ok payload, ch, ⟨turns, stderr⟩)
  | .waiting ch =>
    let (ch, stderr) := drain ch stderr
    match turns with
    | [] => none
    | turn :: turns =>
      if turn.cancelled then failure ch .cancelled ⟨turns, stderr⟩
      else if deadline ≤ turn.now then failure ch .timeout ⟨turns, stderr⟩
      else
        match turn.poll (wait ch deadline turn.now) with
        | (some chunk, _) => receiveFrom deadline (push ch chunk) turns stderr
        | (none, ended) =>
          if ended || !turn.isrunning then
            match turn.last with
            | none => failure ch .ended ⟨turns, stderr⟩
            | some last => receiveFrom deadline (push ch last) turns stderr
          else receiveFrom deadline ch turns stderr
termination_by structural turns

def receive (deadline : ℚ) (ch : Channel) (world : World) : Received :=
  receiveFrom deadline ch world.turns world.stderr

/-- One call after the other, each with its own deadline. -/
def receiveAll : List ℚ → Channel → World → Option (List (Except Failure Bytes) × Channel × World)
  | [], ch, world => some ([], ch, world)
  | deadline :: deadlines, ch, world =>
    match receive deadline ch world with
    | none => none
    | some (answer, ch, world) =>
      (receiveAll deadlines ch world).map fun (answers, ch, world) => (answer :: answers, ch, world)

end Receiving

end Nupp.workerchannel

/-! However the bytes of a list of frames are cut into chunks, the calls that take them answer the
payloads one by one, each before its own deadline. -/

namespace Nupp.workerchannel

open Decimal Nupp.Data

section Numerals

theorem numeral_short (payload : Payload) : (numeral payload.bytes.length).length ≤ 10 := by
  have hshort := payload.short
  exact numeral_length_le 9 (by norm_num at hshort ⊢; omega)

theorem digit_ne_newline {n : ℕ} {b : UInt8} (h : b ∈ numeral n) : (b != 10) = true := by
  have hdigit := isDigit_of_mem_numeral h
  rw [bne_iff_ne]
  rintro rfl
  exact absurd hdigit (by decide)

theorem lengthOf_numeral (n : ℕ) : lengthOf (numeral n) = some n := by
  have hdigits : (numeral n).all isDigit = true :=
    List.all_eq_true.mpr fun b hb => isDigit_of_mem_numeral hb
  rw [lengthOf, if_pos ⟨numeral_ne_nil n, hdigits⟩, value_numeral]

theorem takeWhile_header (n : ℕ) (rest : Bytes) :
    (numeral n ++ 10 :: rest).takeWhile (· != 10) = numeral n := by
  rw [List.takeWhile_append_of_pos fun b hb => digit_ne_newline hb]
  simp

theorem dropWhile_header (n : ℕ) (rest : Bytes) :
    (numeral n ++ 10 :: rest).dropWhile (· != 10) = 10 :: rest := by
  rw [List.dropWhile_append_of_pos fun b hb => digit_ne_newline hb]
  simp

/-- A piece of a header has no end of line. -/
theorem dropWhile_piece {n : ℕ} {piece : Bytes} (h : piece <+: numeral n) :
    piece.dropWhile (· != 10) = [] :=
  List.dropWhile_eq_nil_iff.mpr fun _ hb => digit_ne_newline (h.subset hb)

theorem frame_length (payload : Payload) :
    (frame payload).length = (numeral payload.bytes.length).length + 1 + payload.bytes.length := by
  simp only [frame, List.length_append, List.length_cons]
  omega

end Numerals

section Stages

/-- No header is read yet. -/
structure Idle (ch : Channel) : Prop where
  expected : ch.expected = none
  chunks : ch.chunks = []
  have' : ch.have' = 0

/-- The header of a payload is read, and a part of the body. -/
structure Reading (ch : Channel) (payload : Payload) : Prop where
  expected : ch.expected = some payload.bytes.length
  head : ch.head = []
  have' : ch.have' = ch.chunks.flatten.length

/-- What a call leaves of a channel as it was opened. -/
structure Kept (opened ch : Channel) : Prop where
  maxFrame : ch.maxFrame = opened.maxFrame
  waitMs : ch.waitMs = opened.waitMs

/-- The channel has taken `n` bytes of a frame and what follows it, and `ahead` are to come. -/
inductive Stage (payload : Payload) (after : Bytes) (ch : Channel) (n : ℕ) (ahead : Bytes) : Prop
  | header (idle : Idle ch) (bytes : ch.head ++ ahead = frame payload ++ after)
      (taken : n = ch.head.length)
  | body (reading : Reading ch payload)
      (bytes : ch.chunks.flatten ++ ahead = payload.bytes ++ after)
      (taken : n = (numeral payload.bytes.length).length + 1 + ch.have')

variable {payload : Payload} {after ahead : Bytes} {ch opened : Channel} {n : ℕ}

theorem Stage.taken_add (h : Stage payload after ch n ahead) :
    n + ahead.length = (frame payload).length + after.length := by
  cases h with
  | header idle bytes taken =>
    have hlength := congrArg List.length bytes
    rw [List.length_append, List.length_append] at hlength
    omega
  | body reading bytes taken =>
    have hlength := congrArg List.length bytes
    rw [List.length_append, List.length_append, ← reading.have'] at hlength
    rw [frame_length]
    omega

theorem Stage.push {chunk : Bytes} (h : Stage payload after ch n (chunk ++ ahead)) :
    Stage payload after (push ch chunk) (n + chunk.length) ahead := by
  cases h with
  | header idle bytes taken =>
    have hpush : workerchannel.push ch chunk = { ch with head := ch.head ++ chunk } := by
      simp [workerchannel.push, idle.expected]
    rw [hpush]
    refine .header ⟨idle.expected, idle.chunks, idle.have'⟩ ?_ ?_
    · simpa using bytes
    · simp [taken]
  | body reading bytes taken =>
    have hpush : workerchannel.push ch chunk =
        { ch with chunks := ch.chunks ++ [chunk], have' := ch.have' + chunk.length } := by
      simp [workerchannel.push, reading.expected]
    rw [hpush]
    refine .body ⟨reading.expected, reading.head, ?_⟩ ?_ ?_
    · simp [reading.have']
    · simpa using bytes
    · simp only [taken]
      omega

theorem Kept.trans {ch' : Channel} (h : Kept opened ch) (h' : Kept ch ch') : Kept opened ch' :=
  ⟨h'.maxFrame.trans h.maxFrame, h'.waitMs.trans h.waitMs⟩

theorem Kept.push (h : Kept opened ch) (chunk : Bytes) : Kept opened (push ch chunk) := by
  rw [workerchannel.push]
  split_ifs
  · exact ⟨h.maxFrame, h.waitMs⟩
  · exact ⟨h.maxFrame, h.waitMs⟩

theorem push_received (ch : Channel) (chunk : Bytes) : (push ch chunk).received = ch.received := by
  rw [push]
  split_ifs <;> rfl

/-- Taking what was said changes nothing else. -/
theorem drain_eq (ch : Channel) (stderr : List (List Bytes)) :
    ∃ said, (drain ch stderr).1 = { ch with said } := by
  cases stderr with
  | nil => exact ⟨ch.said, rfl⟩
  | cons found stderr =>
    induction found generalizing ch with
    | nil => exact ⟨ch.said, rfl⟩
    | cons chunk found ih =>
      obtain ⟨said, h⟩ := ih (keep ch chunk)
      exact ⟨said, h⟩

theorem Stage.drain (h : Stage payload after ch n ahead) (stderr : List (List Bytes)) :
    Stage payload after (drain ch stderr).1 n ahead := by
  obtain ⟨said, hdrain⟩ := drain_eq ch stderr
  rw [hdrain]
  cases h with
  | header idle bytes taken => exact .header ⟨idle.expected, idle.chunks, idle.have'⟩ bytes taken
  | body reading bytes taken =>
    exact .body ⟨reading.expected, reading.head, reading.have'⟩ bytes taken

theorem Kept.drain (h : Kept opened ch) (stderr : List (List Bytes)) :
    Kept opened (drain ch stderr).1 := by
  obtain ⟨said, hdrain⟩ := drain_eq ch stderr
  rw [hdrain]
  exact ⟨h.maxFrame, h.waitMs⟩

theorem Idle.drain (h : Idle ch) (stderr : List (List Bytes)) : Idle (drain ch stderr).1 := by
  obtain ⟨said, hdrain⟩ := drain_eq ch stderr
  rw [hdrain]
  exact ⟨h.expected, h.chunks, h.have'⟩

theorem drain_head (ch : Channel) (stderr : List (List Bytes)) :
    (drain ch stderr).1.head = ch.head := by
  obtain ⟨said, hdrain⟩ := drain_eq ch stderr
  rw [hdrain]

theorem drain_received (ch : Channel) (stderr : List (List Bytes)) :
    (drain ch stderr).1.received = ch.received := by
  obtain ⟨said, hdrain⟩ := drain_eq ch stderr
  rw [hdrain]

theorem Kept.wait (h : Kept opened ch) (deadline now : ℚ) :
    wait ch deadline now = wait opened deadline now := by
  rw [workerchannel.wait, workerchannel.wait, h.waitMs]

/-- A header that is in part to come waits; a complete one becomes a body that is begun. -/
theorem takeHeader_spec (hidle : Idle ch) (hbytes : ch.head ++ ahead = frame payload ++ after)
    (hmax : payload.bytes.length ≤ ch.maxFrame) :
    ∃ ch', takeHeader ch = .ok ch' ∧ Stage payload after ch' ch.head.length ahead ∧
      Kept ch ch' ∧ ch'.received = ch.received ∧
      (ch'.expected = none → ch.head.length < (frame payload).length) := by
  rw [frame, List.append_assoc, List.cons_append] at hbytes
  by_cases hshort : ch.head.length ≤ (numeral payload.bytes.length).length
  · have hpiece : ch.head <+: numeral payload.bytes.length := by
      refine List.prefix_of_prefix_length_le (List.prefix_append _ ahead) ?_ hshort
      rw [hbytes]
      exact List.prefix_append _ _
    have hlong : ¬ MAX_HEADER_BYTES < ch.head.length := by
      have hten := numeral_short payload
      rw [MAX_HEADER_BYTES]
      omega
    have htake : takeHeader ch = .ok ch := by
      rw [takeHeader, dropWhile_piece hpiece]
      simp [hlong]
    refine ⟨ch, htake, .header hidle ?_ rfl, ⟨rfl, rfl⟩, rfl, fun _ => ?_⟩
    · rw [hbytes, frame, List.append_assoc, List.cons_append]
    · rw [frame_length]
      omega
  · have hbegun : numeral payload.bytes.length ++ [10] <+: ch.head := by
      refine List.prefix_of_prefix_length_le ?_ (List.prefix_append ch.head ahead) ?_
      · rw [hbytes]
        exact ⟨payload.bytes ++ after, by simp⟩
      · rw [List.length_append, List.length_singleton]
        omega
    obtain ⟨rest, hrest⟩ := hbegun
    rw [List.append_assoc, List.singleton_append] at hrest
    have hbody : rest ++ ahead = payload.bytes ++ after := by
      rw [← hrest, List.append_assoc, List.cons_append] at hbytes
      exact (List.cons.inj (List.append_cancel_left hbytes)).2
    have htake : takeHeader ch = .ok { ch with
        head := []
        expected := some payload.bytes.length
        chunks := if rest ≠ [] then [rest] else []
        have' := rest.length } := by
      rw [takeHeader, ← hrest, dropWhile_header, takeWhile_header]
      simp [lengthOf_numeral, hmax]
    have hflatten : (if rest ≠ [] then [rest] else []).flatten = rest := by
      by_cases hnil : rest = [] <;> simp [hnil]
    refine ⟨_, htake, .body ⟨rfl, rfl, ?_⟩ ?_ ?_, ⟨rfl, rfl⟩, rfl, fun h => by simp at h⟩
    · simp only [hflatten]
    · simpa only [hflatten] using hbody
    · rw [← hrest]
      simp only [List.length_append, List.length_cons]
      omega

/-- A complete body is answered, and what is more than the body is kept for the next frame. -/
theorem answer_spec (hread : Reading ch payload)
    (hbytes : ch.chunks.flatten ++ ahead = payload.bytes ++ after)
    (hhave : payload.bytes.length ≤ ch.have') :
    ∃ ch', answer ch payload.bytes.length = .answered payload.bytes ch' ∧ Idle ch' ∧ Kept ch ch' ∧
      ch'.head ++ ahead = after ∧ ch'.head.length = ch.have' - payload.bytes.length ∧
      ch'.received = ch.received + payload.bytes.length := by
  rw [hread.have'] at hhave
  have hbody : payload.bytes <+: ch.chunks.flatten := by
    refine List.prefix_of_prefix_length_le ?_ (List.prefix_append _ ahead) hhave
    rw [hbytes]
    exact List.prefix_append _ _
  obtain ⟨more, hmore⟩ := hbody
  have hafter : more ++ ahead = after := by
    rw [← hmore, List.append_assoc] at hbytes
    exact List.append_cancel_left hbytes
  have hhead : (if payload.bytes.length < ch.chunks.flatten.length
      then ch.chunks.flatten.drop payload.bytes.length else ch.head) = more := by
    by_cases hnil : more = []
    · simp [← hmore, hnil, hread.head]
    · have hpos := List.length_pos_iff.mpr hnil
      simp [← hmore, hpos]
  have hpayload : (if payload.bytes.length < ch.chunks.flatten.length
      then ch.chunks.flatten.take payload.bytes.length else ch.chunks.flatten) = payload.bytes := by
    by_cases hnil : more = []
    · simp [← hmore, hnil]
    · have hpos := List.length_pos_iff.mpr hnil
      simp [← hmore, hpos]
  refine ⟨{ ch with
      head := more
      expected := none
      chunks := []
      have' := 0
      received := ch.received + payload.bytes.length }, ?_, ⟨rfl, rfl, rfl⟩, ⟨rfl, rfl⟩, hafter, ?_,
    rfl⟩
  · simp only [answer, hhead, hpayload]
  · simp only [hread.have', ← hmore, List.length_append]
    omega

/-- A call waits only while bytes of its own frame are to come. -/
inductive Readied (payload : Payload) (after : Bytes) (ch : Channel) (n : ℕ) (ahead : Bytes) : Prop
  | waiting (ch' : Channel) (ready : ready ch = .waiting ch')
      (stage : Stage payload after ch' n ahead) (kept : Kept ch ch')
      (received : ch'.received = ch.received) (early : n < (frame payload).length)
  | answered (ch' : Channel) (ready : ready ch = .answered payload.bytes ch') (idle : Idle ch')
      (kept : Kept ch ch') (bytes : ch'.head ++ ahead = after)
      (taken : n = (frame payload).length + ch'.head.length)
      (received : ch'.received = ch.received + payload.bytes.length)

theorem ready_reading (hread : Reading ch payload)
    (hbytes : ch.chunks.flatten ++ ahead = payload.bytes ++ after)
    (htaken : n = (numeral payload.bytes.length).length + 1 + ch.have') :
    Readied payload after ch n ahead := by
  by_cases hhave : payload.bytes.length ≤ ch.have'
  · obtain ⟨ch', hanswer, hidle, hkept, hafter, hlength, hreceived⟩ := answer_spec hread hbytes hhave
    refine .answered ch' ?_ hidle hkept hafter ?_ hreceived
    · simp [ready, hread.expected, hhave, hanswer]
    · rw [frame_length]
      omega
  · refine .waiting ch ?_ (.body hread hbytes htaken) ⟨rfl, rfl⟩ rfl ?_
    · simp [ready, hread.expected, hhave]
    · rw [frame_length]
      omega

theorem ready_spec (h : Stage payload after ch n ahead)
    (hmax : payload.bytes.length ≤ ch.maxFrame) : Readied payload after ch n ahead := by
  cases h with
  | body reading bytes taken => exact ready_reading reading bytes taken
  | header idle bytes taken =>
    obtain ⟨ch', htake, hstage, hkept, hreceived, hearly⟩ := takeHeader_spec idle bytes hmax
    rw [← taken] at hstage hearly
    cases hstage with
    | header idle' bytes' taken' =>
      refine .waiting ch' ?_ (.header idle' bytes' taken') hkept hreceived (hearly idle'.expected)
      simp [ready, idle.expected, htake, idle'.expected]
    | body reading' bytes' taken' =>
      have hready : ready ch = ready ch' := by
        simp [ready, idle.expected, htake, reading'.expected]
      cases ready_reading reading' bytes' taken' with
      | waiting final hfinal stage kept received early =>
        exact .waiting final (hready.trans hfinal) stage
          (hkept.trans kept)
          (received.trans hreceived) early
      | answered final hfinal idle' kept after' length received =>
        exact .answered final (hready.trans hfinal) idle'
          (hkept.trans kept) after' length
          (by rw [received, hreceived])

end Stages

section Runs

/-- A call for a payload, with its deadline. -/
abbrev Call := ℚ × Payload

/-- The deadline of the call whose frame a byte belongs to. -/
def due : List Call → ℕ → Option ℚ
  | [], _ => none
  | (deadline, payload) :: calls, n =>
    if n < (frame payload).length then some deadline else due calls (n - (frame payload).length)

/-- The waits bring the chunks: none is cancelled, each is before the deadline of the call it is
for, and the worker goes on, or has exited with its output still to be read. -/
inductive Delivers (opened : Channel) (calls : List Call) : ℕ → List Turn → List Bytes → Prop
  | done {n : ℕ} {turns : List Turn} : Delivers opened calls n turns []
  | chunk {n : ℕ} {turn : Turn} {turns : List Turn} {chunk : Bytes} {chunks : List Bytes}
      (goes : turn.cancelled = false)
      (early : ∀ deadline ∈ due calls n, turn.now < deadline)
      (found : ∀ deadline ∈ due calls n,
        (turn.poll (wait opened deadline turn.now)).1 = some chunk)
      (rest : Delivers opened calls (n + chunk.length) turns chunks) :
      Delivers opened calls n (turn :: turns) (chunk :: chunks)
  | idle {n : ℕ} {turn : Turn} {turns : List Turn} {chunks : List Bytes}
      (goes : turn.cancelled = false)
      (early : ∀ deadline ∈ due calls n, turn.now < deadline)
      (found : ∀ deadline ∈ due calls n,
        turn.poll (wait opened deadline turn.now) = (none, false))
      (runs : turn.isrunning = true)
      (rest : Delivers opened calls n turns chunks) : Delivers opened calls n (turn :: turns) chunks
  | last {n : ℕ} {turn : Turn} {turns : List Turn} {chunk : Bytes} {chunks : List Bytes}
      (goes : turn.cancelled = false)
      (early : ∀ deadline ∈ due calls n, turn.now < deadline)
      (found : ∀ deadline ∈ due calls n,
        (turn.poll (wait opened deadline turn.now)).1 = none ∧
          ((turn.poll (wait opened deadline turn.now)).2 = true ∨ turn.isrunning = false))
      (last : turn.last = some chunk)
      (rest : Delivers opened calls (n + chunk.length) turns chunks) :
      Delivers opened calls n (turn :: turns) (chunk :: chunks)

variable {opened ch : Channel} {call : Call} {calls : List Call} {n : ℕ} {turns : List Turn}
  {chunks : List Bytes} {after : Bytes}

theorem due_of_lt (h : n < (frame call.2).length) : due (call :: calls) n = some call.1 := by
  rw [due, if_pos h]

theorem due_of_ge (h : (frame call.2).length ≤ n) :
    due (call :: calls) n = due calls (n - (frame call.2).length) := by
  rw [due, if_neg (by omega)]

theorem exists_of_due {deadline : ℚ} (h : due calls n = some deadline) :
    ∃ call ∈ calls, call.1 = deadline := by
  induction calls generalizing n with
  | nil => simp [due] at h
  | cons call calls ih =>
    rw [due] at h
    split_ifs at h with hn
    · exact ⟨call, by simp, Option.some.inj h⟩
    · obtain ⟨call', hmem, hcall⟩ := ih h
      exact ⟨call', List.mem_cons_of_mem _ hmem, hcall⟩

/-- What comes after a frame is delivered to the calls that come after. -/
theorem Delivers.next (h : Delivers opened (call :: calls) n turns chunks)
    (hn : (frame call.2).length ≤ n) :
    Delivers opened calls (n - (frame call.2).length) turns chunks := by
  induction h with
  | done => exact .done
  | @chunk n turn turns chunk chunks goes early found rest ih =>
    rw [due_of_ge hn] at early found
    have hrest := ih (by omega)
    rw [Nat.sub_add_comm hn] at hrest
    exact .chunk goes early found hrest
  | idle goes early found runs rest ih =>
    rw [due_of_ge hn] at early found
    exact .idle goes early found runs (ih hn)
  | @last n turn turns chunk chunks goes early found last rest ih =>
    rw [due_of_ge hn] at early found
    have hrest := ih (by omega)
    rw [Nat.sub_add_comm hn] at hrest
    exact .last goes early found last hrest

/-- A call answered its payload, and what comes after its frame is held or to come. -/
structure Answered (opened : Channel) (payload : Payload) (calls : List Call) (after : Bytes)
    (received : ℕ) (result : Received) : Prop where
  out : ∃ ch world chunks, result = some (.ok payload.bytes, ch, world) ∧ Idle ch ∧
    Kept opened ch ∧ ch.head ++ chunks.flatten = after ∧
    Delivers opened calls ch.head.length world.turns chunks ∧
    ch.received = received + payload.bytes.length

theorem receiveFrom_answered {ch' : Channel} {stderr : List (List Bytes)}
    (hready : ready ch = .answered call.2.bytes ch') (hidle : Idle ch') (hkept : Kept opened ch')
    (hbytes : ch'.head ++ chunks.flatten = after)
    (htaken : n = (frame call.2).length + ch'.head.length)
    (hreceived : ch'.received = ch.received + call.2.bytes.length)
    (h : Delivers opened (call :: calls) n turns chunks) :
    Answered opened call.2 calls after ch.received (receiveFrom call.1 ch turns stderr) := by
  have hafter := h.next (by omega)
  rw [htaken, Nat.add_sub_cancel_left] at hafter
  refine ⟨(drain ch' stderr).1, ⟨turns, (drain ch' stderr).2⟩, chunks, ?_, hidle.drain stderr,
    hkept.drain stderr, ?_, ?_, ?_⟩
  · rw [receiveFrom.eq_def, hready]
  · rw [drain_head, hbytes]
  · rw [drain_head]
    exact hafter
  · rw [drain_received, hreceived]

/-- One wait of a call whose frame is not complete. -/
theorem receiveFrom_waiting {ch' : Channel} {stderr : List (List Bytes)} {deadline : ℚ} {turn : Turn}
    (hready : ready ch = .waiting ch') (goes : turn.cancelled = false)
    (early : turn.now < deadline) :
    receiveFrom deadline ch (turn :: turns) stderr =
      match turn.poll (wait (drain ch' stderr).1 deadline turn.now) with
      | (some chunk, _) =>
        receiveFrom deadline (push (drain ch' stderr).1 chunk) turns (drain ch' stderr).2
      | (none, ended) =>
        if ended || !turn.isrunning then
          match turn.last with
          | none => failure (drain ch' stderr).1 .ended ⟨turns, (drain ch' stderr).2⟩
          | some last =>
            receiveFrom deadline (push (drain ch' stderr).1 last) turns (drain ch' stderr).2
        else receiveFrom deadline (drain ch' stderr).1 turns (drain ch' stderr).2 := by
  rw [receiveFrom.eq_def, hready]
  refine (if_neg (by simp [goes])).trans ((if_neg (not_le.mpr early)).trans ?_)
  rfl

/-- One call, by induction on the waits that bring its frame. -/
theorem receiveFrom_answers {stderr : List (List Bytes)}
    (h : Delivers opened (call :: calls) n turns chunks) (hkept : Kept opened ch)
    (hmax : call.2.bytes.length ≤ opened.maxFrame)
    (hstage : Stage call.2 after ch n chunks.flatten) :
    Answered opened call.2 calls after ch.received (receiveFrom call.1 ch turns stderr) := by
  have hready := ready_spec hstage (hkept.maxFrame ▸ hmax)
  induction h generalizing ch stderr with
  | @done n turns =>
    cases hready with
    | waiting ch' hready stage kept received hn =>
      have hall := stage.taken_add
      simp only [List.flatten_nil, List.length_nil] at hall
      omega
    | answered ch' hready idle kept bytes taken received =>
      exact receiveFrom_answered hready idle (hkept.trans kept) bytes taken received .done
  | @chunk n turn turns chunk chunks goes early found rest ih =>
    cases hready with
    | answered ch' hready idle kept bytes taken received =>
      exact receiveFrom_answered hready idle (hkept.trans kept) bytes taken received
        (.chunk goes early found rest)
    | waiting ch' hready stage kept received hn =>
      have hdrained := (hkept.trans kept).drain stderr
      have hpushed := hdrained.push chunk
      have hpoll := found call.1 (due_of_lt hn)
      rw [← hdrained.wait] at hpoll
      have hfound : turn.poll (wait (drain ch' stderr).1 call.1 turn.now) = (some chunk, _) :=
        Prod.ext hpoll rfl
      have hchunk : Stage call.2 after (drain ch' stderr).1 n (chunk ++ chunks.flatten) :=
        stage.drain stderr
      rw [receiveFrom_waiting hready goes (early call.1 (due_of_lt hn)), hfound, ← received,
        ← drain_received ch' stderr, ← push_received _ chunk]
      exact ih hpushed hchunk.push (ready_spec hchunk.push (hpushed.maxFrame ▸ hmax))
  | @idle n turn turns chunks goes early found runs rest ih =>
    cases hready with
    | answered ch' hready idle kept bytes taken received =>
      exact receiveFrom_answered hready idle (hkept.trans kept) bytes taken received
        (.idle goes early found runs rest)
    | waiting ch' hready stage kept received hn =>
      have hdrained := (hkept.trans kept).drain stderr
      have hpoll := found call.1 (due_of_lt hn)
      rw [← hdrained.wait] at hpoll
      have hwait := stage.drain stderr
      rw [receiveFrom_waiting hready goes (early call.1 (due_of_lt hn)), hpoll, ← received,
        ← drain_received ch' stderr]
      simp only [runs, Bool.not_true, Bool.or_false, Bool.false_eq_true, if_false]
      exact ih hdrained hwait (ready_spec hwait (hdrained.maxFrame ▸ hmax))
  | @last n turn turns chunk chunks goes early found last rest ih =>
    cases hready with
    | answered ch' hready idle kept bytes taken received =>
      exact receiveFrom_answered hready idle (hkept.trans kept) bytes taken received
        (.last goes early found last rest)
    | waiting ch' hready stage kept received hn =>
      have hdrained := (hkept.trans kept).drain stderr
      have hpushed := hdrained.push chunk
      obtain ⟨hpoll, hended⟩ := found call.1 (due_of_lt hn)
      rw [← hdrained.wait] at hpoll hended
      have hexit : ((turn.poll (wait (drain ch' stderr).1 call.1 turn.now)).2 ||
          !turn.isrunning) = true := by
        rcases hended with h | h <;> simp [h]
      have hfound : turn.poll (wait (drain ch' stderr).1 call.1 turn.now) = (none, _) :=
        Prod.ext hpoll rfl
      have hchunk : Stage call.2 after (drain ch' stderr).1 n (chunk ++ chunks.flatten) :=
        stage.drain stderr
      rw [receiveFrom_waiting hready goes (early call.1 (due_of_lt hn)), hfound, ← received,
        ← drain_received ch' stderr, ← push_received _ chunk]
      simp only [hexit, if_true, last]
      exact ih hpushed hchunk.push (ready_spec hchunk.push (hpushed.maxFrame ▸ hmax))

def frames (calls : List Call) : Bytes := (calls.map fun call => frame call.2).flatten

/-- The calls that are to come, from a channel that holds the first bytes of their frames. -/
theorem receiveAll_answers {world : World} (hidle : Idle ch) (hkept : Kept opened ch)
    (hmax : ∀ call ∈ calls, call.2.bytes.length ≤ opened.maxFrame)
    (hbytes : ch.head ++ chunks.flatten = frames calls)
    (h : Delivers opened calls ch.head.length world.turns chunks) :
    ∃ ch' world' chunks',
      receiveAll (calls.map Prod.fst) ch world =
        some (calls.map fun call => .ok call.2.bytes, ch', world') ∧
      Idle ch' ∧ ch'.head = [] ∧ chunks'.flatten = [] ∧
      ch'.received = ch.received + (calls.map fun call => call.2.bytes.length).sum ∧
      Delivers opened [] 0 world'.turns chunks' := by
  induction calls generalizing ch world chunks with
  | nil =>
    obtain ⟨hhead, hchunks⟩ := List.append_eq_nil_iff.mp hbytes
    rw [hhead] at h
    exact ⟨ch, world, chunks, rfl, hidle, hhead, hchunks, rfl, h⟩
  | cons call calls ih =>
    have hstage : Stage call.2 (frames calls) ch ch.head.length chunks.flatten :=
      .header hidle hbytes rfl
    obtain ⟨next, world', chunks', hcall, hidle', hkept', hbytes', h', hreceived⟩ :=
      (receiveFrom_answers h hkept (hmax call (by simp)) hstage).out
    obtain ⟨last, final, left, hcalls, hidle'', hhead, hleft, hreceived', h''⟩ :=
      ih hidle' hkept' (fun call hcall => hmax call (List.mem_cons_of_mem _ hcall)) hbytes' h'
    refine ⟨last, final, left, ?_, hidle'', hhead, hleft, ?_, h''⟩
    · rw [List.map_cons, receiveAll, receive, hcall]
      simp only [hcalls, Option.map_some, List.map_cons]
    · rw [hreceived', hreceived, List.map_cons, List.sum_cons, Nat.add_assoc]

/-- However the frames are cut into chunks, the calls answer the payloads in their order, and the
channel is left with no byte. -/
theorem receiveAll_frames (maxFrame maxSaid : ℕ) (waitMs : ℤ) (calls : List Call)
    (hmax : ∀ call ∈ calls, call.2.bytes.length ≤ maxFrame) (world : World) (chunks : List Bytes)
    (hchunks : chunks.flatten = frames calls)
    (h : Delivers (Channel.open' maxFrame maxSaid waitMs) calls 0 world.turns chunks) :
    ∃ ch world' chunks',
      receiveAll (calls.map Prod.fst) (Channel.open' maxFrame maxSaid waitMs) world =
        some (calls.map fun call => .ok call.2.bytes, ch, world') ∧
      Idle ch ∧ ch.head = [] ∧ chunks'.flatten = [] ∧
      ch.received = (calls.map fun call => call.2.bytes.length).sum ∧
      Delivers (Channel.open' maxFrame maxSaid waitMs) [] 0 world'.turns chunks' := by
  have hidle : Idle (Channel.open' maxFrame maxSaid waitMs) := ⟨rfl, rfl, rfl⟩
  obtain ⟨ch, world', chunks', hcalls, hidle', hhead, hleft, hreceived, h'⟩ :=
    receiveAll_answers hidle ⟨rfl, rfl⟩ hmax hchunks h
  rw [show (Channel.open' maxFrame maxSaid waitMs).received = 0 from rfl, Nat.zero_add] at hreceived
  exact ⟨ch, world', chunks', hcalls, hidle', hhead, hleft, hreceived, h'⟩

def bringing (chunk : Bytes) : Turn :=
  { cancelled := false, now := 0, poll := fun _ => (some chunk, false), isrunning := true,
    last := none }

/-- `ab` and nothing, in chunks that cut the first header and join the two frames. -/
theorem receiveAll_frames_cut :
    ∃ ch world chunks,
      receiveAll [1, 1] (Channel.open' 64 0 50)
          ⟨[bringing [50], bringing [10, 97, 98, 48], bringing [10]], []⟩ =
        some ([.ok [97, 98], .ok []], ch, world) ∧
      Idle ch ∧ ch.head = [] ∧ chunks.flatten = [] ∧ ch.received = 2 ∧
      Delivers (Channel.open' 64 0 50) [] 0 world.turns chunks := by
  have hearly : ∀ n, ∀ deadline ∈ due [(1, ⟨[97, 98], by decide⟩), (1, ⟨[], by decide⟩)] n,
      (0 : ℚ) < deadline := by
    intro n deadline h
    obtain ⟨call, hmem, rfl⟩ := exists_of_due h
    simp only [List.mem_cons, List.not_mem_nil, or_false] at hmem
    rcases hmem with rfl | rfl <;> norm_num
  have hcut : Delivers (Channel.open' 64 0 50)
      [(1, ⟨[97, 98], by decide⟩), (1, ⟨[], by decide⟩)] 0
      [bringing [50], bringing [10, 97, 98, 48], bringing [10]] [[50], [10, 97, 98, 48], [10]] :=
    .chunk rfl (hearly _) (fun _ _ => rfl) (.chunk rfl (hearly _) (fun _ _ => rfl)
      (.chunk rfl (hearly _) (fun _ _ => rfl) .done))
  exact receiveAll_frames 64 0 50 [(1, ⟨[97, 98], by decide⟩), (1, ⟨[], by decide⟩)]
    (by simp) ⟨_, []⟩ _ (by decide +kernel) hcut

end Runs

end Nupp.workerchannel
