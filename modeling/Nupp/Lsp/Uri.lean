import Mathlib.Data.List.Basic
import Mathlib.Algebra.Order.Group.Nat
import Mathlib.Data.List.TakeWhile
import Mathlib.Tactic.SplitIfs

/-! File URIs and the paths they name (`uriToPath` and `pathToUri` of `nupp/tools/lsp/text.nupp`). -/

namespace Nupp.lsp.uri

abbrev Bytes := List UInt8

def SLASH : UInt8 := 47
def BACKSLASH : UInt8 := 92
def COLON : UInt8 := 58
def PERCENT : UInt8 := 37

def isUpper (b : UInt8) : Bool := 65 ≤ b.toNat && b.toNat ≤ 90

def isLower (b : UInt8) : Bool := 97 ≤ b.toNat && b.toNat ≤ 122

def isLetter (b : UInt8) : Bool := isUpper b || isLower b

def isDigit (b : UInt8) : Bool := 48 ≤ b.toNat && b.toNat ≤ 57

def lower (b : UInt8) : UInt8 := if isUpper b then b + 32 else b

/-- `%x`, and the number of the digit. -/
def hexDigit (b : UInt8) : Option ℕ :=
  if isDigit b then some (b.toNat - 48)
  else if 97 ≤ b.toNat && b.toNat ≤ 102 then some (b.toNat - 87)
  else if 65 ≤ b.toNat && b.toNat ≤ 70 then some (b.toNat - 55)
  else none

def fileScheme : Bytes := [102, 105, 108, 101, 58]

def localhost : Bytes := [108, 111, 99, 97, 108, 104, 111, 115, 116]

/-- `path:gsub("%%(%x%x)", …)`. -/
def decode : Bytes → Bytes
  | [] => []
  | [a] => [a]
  | [a, b] => [a, b]
  | a :: b :: c :: rest =>
    if a = PERCENT then
      match hexDigit b, hexDigit c with
      | some high, some low => UInt8.ofNat (16 * high + low) :: decode rest
      | _, _ => a :: decode (b :: c :: rest)
    else a :: decode (b :: c :: rest)

/-- `^[A-Za-z]:[/\\]`. -/
def isDrive : Bytes → Bool
  | a :: b :: c :: _ => isLetter a && b = COLON && (c = SLASH || c = BACKSLASH)
  | _ => false

/-- `^/[A-Za-z]:[/\\]` and `^/[A-Za-z]:$`. -/
def isRootedDrive : Bytes → Bool
  | [a, b, c] => a = SLASH && isLetter b && c = COLON
  | a :: rest => a = SLASH && isDrive rest
  | [] => false

/-- The path after the scheme and a local authority. -/
def afterAuthority (rest : Bytes) : Bytes :=
  if rest.take 2 = [SLASH, SLASH] then
    let authority := (rest.drop 2).takeWhile (· ≠ SLASH)
    let after := (rest.drop 2).dropWhile (· ≠ SLASH)
    let host := authority.map lower
    if host = [] || host = localhost then after else SLASH :: SLASH :: authority ++ after
  else rest

def uriToPath (uri : Bytes) : Bytes :=
  let path := if (uri.take 5).map lower = fileScheme then afterAuthority (uri.drop 5) else uri
  let path := decode path
  if isRootedDrive path then path.drop 1 else path

/-- What stays as it is in a URI: `[%w%-%._~/:]`. -/
def isKept (b : UInt8) : Bool :=
  isLetter b || isDigit b || b = 45 || b = 46 || b = 95 || b = 126 || b = SLASH || b = COLON

def hexUpper (n : ℕ) : UInt8 := if n < 10 then UInt8.ofNat (48 + n) else UInt8.ofNat (55 + n)

def encodeByte (b : UInt8) : Bytes := if isKept b then [b] else [PERCENT, hexUpper (b.toNat / 16), hexUpper (b.toNat % 16)]

def encode (path : Bytes) : Bytes := path.flatMap encodeByte

/-- `^//([^/]+)(/.*)$`. -/
def splitHost (path : Bytes) : Option (Bytes × Bytes) :=
  if path.take 2 = [SLASH, SLASH] then
    let host := (path.drop 2).takeWhile (· ≠ SLASH)
    let rest := (path.drop 2).dropWhile (· ≠ SLASH)
    if host ≠ [] ∧ rest ≠ [] then some (host, rest) else none
  else none

/-- A Windows path's backslashes are separators. -/
def shown (path : Bytes) : Bytes :=
  if isDrive path || path.take 2 = [BACKSLASH, BACKSLASH] then path.map fun b => if b = BACKSLASH then SLASH else b
  else path

def pathToUri (path : Bytes) : Bytes :=
  let path := shown path
  let drive : Bytes := if isDrive path && path[2]? = some SLASH then [SLASH] else []
  match splitHost path with
  | some (host, rest) => fileScheme ++ (SLASH :: SLASH :: host) ++ encode rest
  | none =>
    let absolute := path.head? = some SLASH || drive ≠ []
    (if absolute then fileScheme ++ [SLASH, SLASH] else fileScheme) ++ drive ++ encode path

end Nupp.lsp.uri

/-! A URI names the path it was written for, unless the path's host reads back as another or as none. -/

namespace Nupp.lsp.uri

variable {path other host rest l : Bytes}

/-! ### Escapes -/

/-- The number of an escape at the front. -/
def frontEscape : Bytes → Option ℕ
  | a :: b :: c :: _ =>
    if a = PERCENT then
      match hexDigit b, hexDigit c with
      | some high, some low => some (16 * high + low)
      | _, _ => none
    else none
  | _ => none

theorem decode_of_none {a : UInt8} (h : frontEscape (a :: l) = none) : decode (a :: l) = a :: decode l := by
  match l with
  | [] => rfl
  | [b] => rfl
  | b :: c :: l =>
    rw [decode]
    rw [frontEscape] at h
    by_cases ha : a = PERCENT
    · rw [if_pos ha] at h ⊢
      cases hhigh : hexDigit b with
      | none => rfl
      | some high =>
        cases hlow : hexDigit c with
        | none => rfl
        | some low =>
          rw [hhigh, hlow] at h
          cases h
    · rw [if_neg ha]

theorem decode_of_some {n : ℕ} (h : frontEscape l = some n) : decode l = UInt8.ofNat n :: decode (l.drop 3) := by
  match l with
  | [] | [_] | [_, _] => cases h
  | a :: b :: c :: l =>
    rw [frontEscape] at h
    split_ifs at h with ha
    split at h
    · next high low hhigh hlow =>
      obtain rfl := Option.some.inj h
      rw [decode, if_pos ha, hhigh, hlow]
      rfl
    · cases h

theorem frontEscape_of_ne {a : UInt8} (h : a ≠ PERCENT) (l : Bytes) : frontEscape (a :: l) = none := by
  match l with
  | [] | [_] => rfl
  | b :: c :: l => rw [frontEscape, if_neg h]

theorem frontEscape_slash (host rest : Bytes) (hne : host ≠ []) :
    frontEscape (host ++ SLASH :: rest) = frontEscape host := by
  match host with
  | [] => exact absurd rfl hne
  | [a] =>
    cases rest with
    | nil => rfl
    | cons b rest =>
      have hslash : hexDigit SLASH = none := by decide
      simp [frontEscape, hslash]
  | [a, b] =>
    have hslash : hexDigit SLASH = none := by decide
    simp only [List.cons_append, List.nil_append, frontEscape, hslash]
    split_ifs
    · cases hexDigit b <;> rfl
    · rfl
  | a :: b :: c :: host => rfl

/-- An escape stands somewhere. -/
def Escaped (l : Bytes) : Prop := ∃ suf, suf <:+ l ∧ (frontEscape suf).isSome

theorem frontEscape_of_not_escaped (h : ¬Escaped l) : frontEscape l = none := by
  cases hfront : frontEscape l with
  | none => rfl
  | some n => exact absurd ⟨l, List.suffix_refl l, by rw [hfront]; rfl⟩ h

theorem decode_of_not_escaped (h : ¬Escaped l) : decode l = l := by
  induction l with
  | nil => rfl
  | cons a l ih =>
    have htail : ¬Escaped l := fun ⟨suf, hsuf, hesc⟩ => h ⟨suf, hsuf.trans (List.suffix_cons a l), hesc⟩
    rw [decode_of_none (frontEscape_of_not_escaped h), ih htail]

theorem length_decode (l : Bytes) : (decode l).length ≤ l.length ∧ (Escaped l → (decode l).length < l.length) := by
  induction hn : l.length using Nat.strong_induction_on generalizing l with
  | _ n ih =>
    subst hn
    cases l with
    | nil => exact ⟨le_rfl, fun ⟨suf, hsuf, hesc⟩ => by
        rw [List.suffix_nil.mp hsuf] at hesc
        cases hesc⟩
    | cons a l =>
      cases hfront : frontEscape (a :: l) with
      | none =>
        obtain ⟨hle, hlt⟩ := ih l.length (Nat.lt_succ_self _) l rfl
        rw [decode_of_none hfront, List.length_cons, List.length_cons]
        refine ⟨Nat.succ_le_succ hle, fun ⟨suf, hsuf, hesc⟩ => Nat.succ_lt_succ (hlt ?_)⟩
        rcases List.suffix_cons_iff.mp hsuf with rfl | hsuf
        · rw [hfront] at hesc
          cases hesc
        · exact ⟨suf, hsuf, hesc⟩
      | some n =>
        have hlength : 3 ≤ (a :: l).length := by
          match l with
          | [] | [_] => cases hfront
          | _ :: _ :: l => simp
        obtain ⟨hle, -⟩ := ih ((a :: l).drop 3).length (by rw [List.length_drop]; omega) _ rfl
        rw [List.length_drop] at hle
        rw [decode_of_some hfront, List.length_cons]
        exact ⟨by omega, fun _ => by omega⟩

/-- No escape goes on past a slash. -/
theorem decode_slash (host rest : Bytes) : decode (host ++ SLASH :: rest) = decode host ++ SLASH :: decode rest := by
  induction hn : host.length using Nat.strong_induction_on generalizing host with
  | _ n ih =>
    subst hn
    cases host with
    | nil => exact decode_of_none (frontEscape_of_ne (by decide) rest)
    | cons a host =>
      have hfront := frontEscape_slash (a :: host) rest (List.cons_ne_nil _ _)
      cases hesc : frontEscape (a :: host) with
      | none =>
        rw [hesc, List.cons_append] at hfront
        rw [decode_of_none hesc, List.cons_append, decode_of_none hfront, ih host.length (Nat.lt_succ_self _) host rfl]
        rfl
      | some n =>
        rw [hesc] at hfront
        have hlength : 3 ≤ (a :: host).length := by
          match host with
          | [] | [_] => cases hesc
          | _ :: _ :: host => simp
        rw [decode_of_some hesc, decode_of_some hfront, List.drop_append_of_le_length hlength,
          ih ((a :: host).drop 3).length (by rw [List.length_drop]; omega) _ rfl]
        rfl

/-! ### Encoding -/

theorem hexDigit_hexUpper {n : ℕ} (h : n < 16) : hexDigit (hexUpper n) = some n := by
  have hall : ∀ n < 16, hexDigit (hexUpper n) = some n := by decide
  exact hall n h

theorem decode_encodeByte (b : UInt8) (l : Bytes) : decode (encodeByte b ++ l) = b :: decode l := by
  rw [encodeByte]
  split_ifs with hkept
  · refine decode_of_none (frontEscape_of_ne ?_ l)
    rintro rfl
    cases hkept
  · have hlow : b.toNat % 16 < 16 := Nat.mod_lt _ (by decide)
    have hhigh : b.toNat / 16 < 16 := by
      have hlt := b.toNat_lt
      omega
    have hfront : frontEscape ([PERCENT, hexUpper (b.toNat / 16), hexUpper (b.toNat % 16)] ++ l) = some b.toNat := by
      simp only [List.cons_append, frontEscape, if_pos, hexDigit_hexUpper hlow, hexDigit_hexUpper hhigh, Option.some.injEq]
      omega
    rw [decode_of_some hfront, UInt8.ofNat_toNat]
    rfl

theorem decode_encode_append (path l : Bytes) : decode (encode path ++ l) = path ++ decode l := by
  induction path with
  | nil => rfl
  | cons b path ih => rw [encode, List.flatMap_cons, List.append_assoc, decode_encodeByte, ← encode, ih, List.cons_append]

theorem decode_encode (path : Bytes) : decode (encode path) = path := by
  have happend := decode_encode_append path []
  rwa [List.append_nil, show decode [] = [] from rfl, List.append_nil] at happend

theorem encode_injective (h : encode path = encode other) : path = other := by
  rw [← decode_encode path, h, decode_encode]

theorem encode_slash (path : Bytes) : encode (SLASH :: path) = SLASH :: encode path := rfl

/-- Only a slash is written as one. -/
theorem head_encode (path : Bytes) : (encode path).head? = some SLASH ↔ path.head? = some SLASH := by
  cases path with
  | nil => exact Iff.rfl
  | cons b path =>
    rw [encode, List.flatMap_cons, encodeByte]
    split_ifs with hkept
    · exact Iff.rfl
    · have hb : b ≠ SLASH := by
        rintro rfl
        exact hkept rfl
      have hb' : ¬b = 47 := hb
      simp [hb', PERCENT, SLASH]

/-! ### The kinds of path -/

/-- A slash, a drive letter and a colon. -/
def SlashDrive (path : Bytes) : Prop := ∃ b rest, path = SLASH :: b :: COLON :: rest ∧ isLetter b = true

theorem slashDrive_of_rooted (h : isRootedDrive path = true) : SlashDrive path := by
  match path with
  | [] => cases h
  | [a] => simp [isRootedDrive, isDrive] at h
  | [a, b] => simp [isRootedDrive, isDrive] at h
  | [a, b, c] =>
    simp only [isRootedDrive, Bool.and_eq_true, decide_eq_true_eq] at h
    obtain ⟨⟨rfl, hb⟩, rfl⟩ := h
    exact ⟨b, [], rfl, hb⟩
  | a :: b :: c :: d :: rest =>
    simp only [isRootedDrive, isDrive, Bool.and_eq_true, decide_eq_true_eq] at h
    obtain ⟨rfl, ⟨hb, rfl⟩, -⟩ := h
    exact ⟨b, d :: rest, rfl, hb⟩

theorem isDrive_iff : isDrive path = true ↔
    ∃ a c rest, path = a :: COLON :: c :: rest ∧ isLetter a = true ∧ (c = SLASH ∨ c = BACKSLASH) := by
  match path with
  | [] | [_] | [_, _] => simp [isDrive]
  | a :: b :: c :: rest =>
    simp only [isDrive, Bool.and_eq_true, Bool.or_eq_true, decide_eq_true_eq]
    constructor
    · rintro ⟨⟨ha, rfl⟩, hc⟩
      exact ⟨a, c, rest, rfl, ha, hc⟩
    · rintro ⟨a', c', rest', heq, ha, hc⟩
      obtain ⟨h1, h2⟩ := List.cons.inj heq
      obtain ⟨h2, h3⟩ := List.cons.inj h2
      obtain ⟨h3, -⟩ := List.cons.inj h3
      exact ⟨⟨h1 ▸ ha, h2⟩, h3 ▸ hc⟩

theorem head_ne_of_isDrive (h : isDrive path = true) : path.head? ≠ some SLASH := by
  obtain ⟨a, c, rest, rfl, ha, -⟩ := isDrive_iff.mp h
  intro heq
  rw [Option.some.inj heq] at ha
  cases ha

theorem takeTwo_iff {b : UInt8} : path.take 2 = [b, b] ↔ ∃ rest, path = b :: b :: rest := by
  match path with
  | [] | [_] => simp
  | a :: c :: rest =>
    constructor
    · intro h
      obtain ⟨rfl, h⟩ := List.cons.inj h
      obtain ⟨rfl, -⟩ := List.cons.inj h
      exact ⟨rest, rfl⟩
    · rintro ⟨rest', heq⟩
      rw [heq]
      rfl

/-- The text that is written: a Windows path with its backslashes turned, or the path itself. -/
theorem shown_cases (path : Bytes) :
    (isDrive (shown path) = true → (shown path)[2]? = some SLASH) ∧ (SlashDrive (shown path) → SlashDrive path) := by
  rw [shown]
  by_cases hdrive : isDrive path = true
  · rw [hdrive, Bool.true_or, if_pos rfl]
    obtain ⟨a, c, rest, rfl, ha, hc⟩ := isDrive_iff.mp hdrive
    refine ⟨fun _ => ?_, fun ⟨b, rest', heq, _⟩ => ?_⟩
    · rcases hc with rfl | rfl <;> rfl
    · have hhead : (if a = BACKSLASH then SLASH else a) = SLASH := (List.cons.inj heq).1
      split_ifs at hhead with hback
      · rw [hback] at ha
        cases ha
      · rw [hhead] at ha
        cases ha
  · by_cases hshare : path.take 2 = [BACKSLASH, BACKSLASH]
    · rw [if_pos (by simp [hshare])]
      obtain ⟨rest, rfl⟩ := takeTwo_iff.mp hshare
      refine ⟨fun h => absurd rfl (head_ne_of_isDrive h), fun ⟨b, rest', heq, hb⟩ => ?_⟩
      have hsecond : SLASH = b := (List.cons.inj (List.cons.inj heq).2).1
      rw [← hsecond] at hb
      cases hb
    · rw [if_neg (by simp [hdrive, hshare])]
      exact ⟨fun h => absurd h hdrive, id⟩

theorem takeWhile_host (hhost : SLASH ∉ host) (rest : Bytes) :
    (host ++ SLASH :: rest).takeWhile (· ≠ SLASH) = host ∧
      (host ++ SLASH :: rest).dropWhile (· ≠ SLASH) = SLASH :: rest := by
  have hall : ∀ b ∈ host, decide (b ≠ SLASH) = true := by
    intro b hb
    rw [decide_eq_true_eq]
    rintro rfl
    exact hhost hb
  rw [List.takeWhile_append_of_pos hall, List.dropWhile_append_of_pos hall, List.takeWhile_cons_of_neg (by decide),
    List.dropWhile_cons_of_neg (by decide), List.append_nil]
  exact ⟨rfl, rfl⟩

theorem splitHost_some (h : splitHost path = some (host, rest)) :
    ∃ r, rest = SLASH :: r ∧ path = SLASH :: SLASH :: (host ++ rest) ∧ host ≠ [] ∧ SLASH ∉ host := by
  rw [splitHost] at h
  by_cases htwo : path.take 2 = [SLASH, SLASH]
  swap
  · rw [if_neg htwo] at h
    cases h
  rw [if_pos htwo] at h
  dsimp only at h
  split_ifs at h with hparts
  obtain ⟨hne, hrest⟩ := hparts
  obtain ⟨tail, rfl⟩ := takeTwo_iff.mp htwo
  obtain ⟨rfl, rfl⟩ := Prod.mk.inj (Option.some.inj h)
  obtain ⟨b, r, hr⟩ := List.exists_cons_of_ne_nil hrest
  have hb : b = SLASH := by
    have hstop := List.head?_dropWhile_not (fun b : UInt8 => decide (b ≠ SLASH)) tail
    have hdrop : tail.dropWhile (fun b => decide (b ≠ SLASH)) = b :: r := hr
    rw [hdrop] at hstop
    simpa using hstop
  refine ⟨r, by rw [hr, hb], ?_, hne, fun hmem => ?_⟩
  · exact congrArg (fun t => SLASH :: SLASH :: t) (List.takeWhile_append_dropWhile).symm
  · have himp := List.mem_takeWhile_imp hmem
    simp at himp

/-- What a path is written as after the scheme. -/
inductive Form (path : Bytes) : Bytes → Prop
  | drive : isDrive path = true → Form path (SLASH :: SLASH :: encode (SLASH :: path))
  | share {host rest : Bytes} : splitHost path = some (host, rest) → Form path (SLASH :: SLASH :: (host ++ encode rest))
  | rooted : path.head? = some SLASH → splitHost path = none → Form path (SLASH :: SLASH :: encode path)
  | relative : path.head? ≠ some SLASH → Form path (encode path)

theorem pathToUri_form (path : Bytes) : ∃ text, pathToUri path = fileScheme ++ text ∧ Form (shown path) text := by
  have hshown := (shown_cases path).1
  rw [pathToUri]
  generalize shown path = q at hshown
  dsimp only
  cases hsplit : splitHost q with
  | some parts =>
    obtain ⟨host, rest⟩ := parts
    exact ⟨_, by simp, .share hsplit⟩
  | none =>
    by_cases hdrive : isDrive q = true
    · refine ⟨_, ?_, .drive hdrive⟩
      simp [hdrive, hshown hdrive, encode_slash]
    · by_cases hhead : q.head? = some SLASH
      · exact ⟨_, by simp [hdrive, hhead], .rooted hhead hsplit⟩
      · exact ⟨_, by simp [hdrive, hhead], .relative hhead⟩

/-! ### Reading back -/

theorem uriToPath_file (text : Bytes) : uriToPath (fileScheme ++ text) =
    if isRootedDrive (decode (afterAuthority text)) then (decode (afterAuthority text)).drop 1
    else decode (afterAuthority text) := by
  rfl

theorem afterAuthority_local (text : Bytes) : afterAuthority (SLASH :: SLASH :: SLASH :: text) = SLASH :: text := by
  rfl

theorem afterAuthority_host (hne : host ≠ []) (hhost : SLASH ∉ host) (rest : Bytes) :
    afterAuthority (SLASH :: SLASH :: (host ++ SLASH :: rest)) =
      if host.map lower = localhost then SLASH :: rest else SLASH :: SLASH :: (host ++ SLASH :: rest) := by
  obtain ⟨htake, hdrop⟩ := takeWhile_host hhost rest
  have htwo : (SLASH :: SLASH :: (host ++ SLASH :: rest)).take 2 = [SLASH, SLASH] := rfl
  have hrest : (SLASH :: SLASH :: (host ++ SLASH :: rest)).drop 2 = host ++ SLASH :: rest := rfl
  rw [afterAuthority, if_pos htwo, hrest, htake, hdrop]
  simp [hne]

/-- A host that reads back as none or as another. -/
def LostHost (path : Bytes) : Prop :=
  ∃ host rest, splitHost path = some (host, rest) ∧ (host.map lower = localhost ∨ Escaped host)

theorem uriToPath_form {text : Bytes} (h : Form path text) (hplain : ¬SlashDrive path) :
    uriToPath (fileScheme ++ text) = path ↔ ¬LostHost path := by
  have hunrooted : isRootedDrive path ≠ true := fun hr => hplain (slashDrive_of_rooted hr)
  rw [uriToPath_file]
  cases h with
  | drive hdrive =>
    have hrooted : isRootedDrive (SLASH :: path) = true := by
      obtain ⟨a, c, rest, rfl, -⟩ := isDrive_iff.mp hdrive
      exact hdrive
    rw [encode_slash, afterAuthority_local, ← encode_slash, decode_encode, if_pos hrooted]
    refine iff_of_true rfl fun ⟨host, rest, hsplit, _⟩ => ?_
    obtain ⟨r, -, rfl, -, -⟩ := splitHost_some hsplit
    exact head_ne_of_isDrive hdrive rfl
  | share hsplit =>
    rename_i host rest
    obtain ⟨r, rfl, rfl, hne, hhost⟩ := splitHost_some hsplit
    rw [encode_slash, afterAuthority_host hne hhost]
    have hlost : LostHost (SLASH :: SLASH :: (host ++ SLASH :: r)) ↔ host.map lower = localhost ∨ Escaped host := by
      constructor
      · rintro ⟨host', rest', hsplit', hlost⟩
        rw [hsplit] at hsplit'
        obtain ⟨rfl, -⟩ := Prod.mk.inj (Option.some.inj hsplit')
        exact hlost
      · exact fun hlost => ⟨host, _, hsplit, hlost⟩
    rw [hlost]
    by_cases hlocal : host.map lower = localhost
    · rw [if_pos hlocal, ← encode_slash, decode_encode]
      refine iff_of_false (fun heq => ?_) fun hnot => hnot (.inl hlocal)
      have hlength := congrArg List.length heq
      split_ifs at hlength <;> simp at hlength <;> omega
    · have hdecode : decode (SLASH :: SLASH :: (host ++ SLASH :: encode r)) =
          SLASH :: SLASH :: (decode host ++ SLASH :: r) := by
        rw [decode_of_none (frontEscape_of_ne (by decide) _), decode_of_none (frontEscape_of_ne (by decide) _),
          decode_slash, decode_encode]
      have hfront : isRootedDrive (SLASH :: SLASH :: (decode host ++ SLASH :: r)) ≠ true := fun hr => by
        obtain ⟨b, rest, heq, hb⟩ := slashDrive_of_rooted hr
        obtain ⟨-, heq⟩ := List.cons.inj heq
        obtain ⟨rfl, -⟩ := List.cons.inj heq
        cases hb
      rw [if_neg hlocal, hdecode, if_neg hfront]
      simp only [List.cons.injEq, true_and, List.append_left_inj, hlocal, false_or]
      constructor
      · intro heq hescaped
        have hlt := (length_decode host).2 hescaped
        rw [heq] at hlt
        exact lt_irrefl _ hlt
      · exact decode_of_not_escaped
  | rooted hhead hsplit =>
    obtain ⟨q, rfl⟩ : ∃ q, path = SLASH :: q := by
      cases path with
      | nil => cases hhead
      | cons b q => exact ⟨q, by rw [Option.some.inj hhead]⟩
    rw [encode_slash, afterAuthority_local, ← encode_slash, decode_encode, if_neg hunrooted]
    refine iff_of_true rfl fun ⟨host, rest, hsome, _⟩ => ?_
    rw [hsplit] at hsome
    cases hsome
  | relative hhead =>
    have hnot : afterAuthority (encode path) = encode path := by
      rw [afterAuthority, if_neg]
      intro htwo
      obtain ⟨rest, hrest⟩ := takeTwo_iff.mp htwo
      exact hhead ((head_encode path).mp (by rw [hrest]; rfl))
    rw [hnot, decode_encode, if_neg hunrooted]
    refine iff_of_true rfl fun ⟨host, rest, hsome, _⟩ => ?_
    obtain ⟨r, -, rfl, -, -⟩ := splitHost_some hsome
    exact hhead rfl

/-- The path of a written text, with the host as it stands. -/
def readForm (text : Bytes) : Bytes :=
  if text.take 2 = [SLASH, SLASH] then
    if (text.drop 2).head? = some SLASH then
      let path := decode (text.drop 2)
      if isRootedDrive path then path.drop 1 else path
    else
      SLASH :: SLASH ::
        ((text.drop 2).takeWhile (· ≠ SLASH) ++ decode ((text.drop 2).dropWhile (· ≠ SLASH)))
  else decode text

theorem readForm_form {text : Bytes} (h : Form path text) (hplain : ¬SlashDrive path) : readForm text = path := by
  have hunrooted : isRootedDrive path ≠ true := fun hr => hplain (slashDrive_of_rooted hr)
  have hslashes (l : Bytes) : (SLASH :: SLASH :: l).take 2 = [SLASH, SLASH] := rfl
  have hdrop (l : Bytes) : (SLASH :: SLASH :: l).drop 2 = l := rfl
  cases h with
  | drive hdrive =>
    have hrooted : isRootedDrive (SLASH :: path) = true := by
      obtain ⟨a, c, rest, rfl, -⟩ := isDrive_iff.mp hdrive
      exact hdrive
    have hhead : (encode (SLASH :: path)).head? = some SLASH := rfl
    rw [readForm, if_pos (hslashes _), hdrop, if_pos hhead, decode_encode]
    exact if_pos hrooted
  | share hsplit =>
    rename_i host rest
    obtain ⟨r, rfl, rfl, hne, hhost⟩ := splitHost_some hsplit
    obtain ⟨htake, hrest⟩ := takeWhile_host hhost (encode r)
    have hhead : (host ++ SLASH :: encode r).head? ≠ some SLASH := by
      cases host with
      | nil => exact absurd rfl hne
      | cons b host =>
        intro heq
        exact hhost (Option.some.inj heq ▸ List.mem_cons_self)
    rw [encode_slash, readForm, if_pos (hslashes _), hdrop, if_neg hhead, htake, hrest, ← encode_slash, decode_encode]
  | rooted hhead hsplit =>
    rw [readForm, if_pos (hslashes _), hdrop, if_pos ((head_encode path).mpr hhead), decode_encode]
    exact if_neg hunrooted
  | relative hhead =>
    rw [readForm, if_neg, decode_encode]
    intro htwo
    obtain ⟨rest, hrest⟩ := takeTwo_iff.mp htwo
    exact hhead ((head_encode path).mp (by rw [hrest]; rfl))

/-- A URI reads back as its path, and is no other path's, exactly when the path has no lost host. -/
theorem uri_roundTrip (path : Bytes) (h : ¬SlashDrive path) :
    (uriToPath (pathToUri path) = shown path ∧
        ∀ other, ¬SlashDrive other → pathToUri other = pathToUri path → shown other = shown path) ↔
      ¬LostHost (shown path) := by
  have hplain (p : Bytes) (hp : ¬SlashDrive p) : ¬SlashDrive (shown p) := fun hs => hp ((shown_cases p).2 hs)
  obtain ⟨text, huri, hform⟩ := pathToUri_form path
  rw [huri, uriToPath_form hform (hplain path h)]
  refine and_iff_left fun other hother heq => ?_
  obtain ⟨text', huri', hform'⟩ := pathToUri_form other
  rw [huri'] at heq
  have htext : text' = text := List.append_cancel_left heq
  rw [← readForm_form hform' (hplain other hother), htext, readForm_form hform (hplain path h)]

theorem uri_roundTrip_relative : uriToPath (pathToUri [115, 114, 99, 47, 97]) = shown [115, 114, 99, 47, 97] ∧
    ∀ other, ¬SlashDrive other → pathToUri other = pathToUri [115, 114, 99, 47, 97] →
      shown other = shown [115, 114, 99, 47, 97] := by
  refine (uri_roundTrip [115, 114, 99, 47, 97] ?_).mpr ?_
  · rintro ⟨b, rest, heq, -⟩
    cases heq
  · rintro ⟨host, rest, hsplit, -⟩
    cases hsplit

/-- `//localhost/a` reads back as `/a`. -/
theorem localhost_lost : ¬∀ path, ¬SlashDrive path → uriToPath (pathToUri path) = shown path := by
  intro hall
  have h : ¬SlashDrive ([SLASH, SLASH] ++ localhost ++ [SLASH, 97]) := by
    rintro ⟨b, rest, heq, hb⟩
    obtain ⟨rfl, -⟩ := List.cons.inj (List.cons.inj heq).2
    cases hb
  exact absurd (hall _ h) (by decide)

end Nupp.lsp.uri
