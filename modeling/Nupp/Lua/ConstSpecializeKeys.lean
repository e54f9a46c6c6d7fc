import Nupp.Lua.ConstSpecialize

/-! The composed keys of specializations can be taken apart again. -/

namespace Nupp.ConstSpecialize

/-- A text up to its first separator is determined by the whole. -/
theorem append_sep_inj {c : Char} {a b x y : Text} (ha : c ∉ a) (hb : c ∉ b)
    (h : a ++ c :: x = b ++ c :: y) : a = b ∧ x = y := by
  induction a generalizing b with
  | nil =>
    cases b with
    | nil => simpa using h
    | cons d b =>
      have hd : c = d := (List.cons.inj h).1
      exact absurd (List.mem_cons.mpr (.inl hd)) hb
  | cons d a ih =>
    cases b with
    | nil =>
      have hd : d = c := (List.cons.inj h).1
      exact absurd (List.mem_cons.mpr (.inl hd.symm)) ha
    | cons e b =>
      obtain ⟨rfl, htail⟩ := List.cons.inj h
      obtain ⟨rfl, rfl⟩ := ih (fun hm => ha (List.mem_cons_of_mem _ hm))
        (fun hm => hb (List.mem_cons_of_mem _ hm)) htail
      exact ⟨rfl, rfl⟩

theorem joined_cons {t : Text} {ts : List Text} (h : ts ≠ []) :
    joined (t :: ts) = t ++ nul :: joined ts := by
  cases ts with
  | nil => exact absurd rfl h
  | cons u us => rfl

/-- Lists of as many separated texts join to the same text only if they are the same. -/
theorem joined_append_inj {ts us : List Text} {x y : Text} (hlen : ts.length = us.length)
    (hts : ∀ t ∈ ts, nul ∉ t) (hus : ∀ u ∈ us, nul ∉ u) (hne : ts ≠ [])
    (h : joined ts ++ nul :: x = joined us ++ nul :: y) : ts = us ∧ x = y := by
  induction ts generalizing us with
  | nil => exact absurd rfl hne
  | cons t ts ih =>
    cases us with
    | nil => cases hlen
    | cons u us =>
      have hlen' : ts.length = us.length := by simpa using hlen
      have ht := hts t List.mem_cons_self
      have hu := hus u List.mem_cons_self
      cases ts with
      | nil =>
        cases us with
        | nil =>
          obtain ⟨rfl, rfl⟩ := append_sep_inj ht hu h
          exact ⟨rfl, rfl⟩
        | cons _ _ => cases hlen'
      | cons t' ts =>
        cases us with
        | nil => cases hlen'
        | cons u' us =>
          have hsplit : t ++ nul :: (joined (t' :: ts) ++ nul :: x) =
              u ++ nul :: (joined (u' :: us) ++ nul :: y) := by
            simpa [joined] using h
          obtain ⟨rfl, htail⟩ := append_sep_inj ht hu hsplit
          obtain ⟨hrest, rfl⟩ := ih hlen' (fun s hs => hts s (List.mem_cons_of_mem _ hs))
            (fun s hs => hus s (List.mem_cons_of_mem _ hs)) (by simp) htail
          exact ⟨by rw [hrest], rfl⟩

/-! Numerals. -/

theorem natText_injective {m n : ℕ} (h : natText m = natText n) : m = n := by
  have hm := Nat.ofDigitChars_ten_toDigits (n := m)
  have hn := Nat.ofDigitChars_ten_toDigits (n := n)
  unfold natText at h
  rw [h] at hm
  exact hm.symm.trans hn

theorem not_mem_natText {c : Char} (hc : c.isDigit = false) (n : ℕ) : c ∉ natText n := by
  intro hmem
  have hdigit := Nat.isDigit_of_mem_toDigits (by decide) (by decide) hmem
  simp [hc] at hdigit

theorem natText_ne_minus {n : ℕ} {t : Text} : natText n ≠ '-' :: t := by
  intro h
  exact not_mem_natText (c := '-') (by decide) n (by simp [h])

theorem intText_injective {m n : ℤ} (h : intText m = intText n) : m = n := by
  cases m with
  | ofNat m =>
    cases n with
    | ofNat n => rw [natText_injective h]
    | negSucc n => exact absurd h natText_ne_minus
  | negSucc m =>
    cases n with
    | ofNat n => exact absurd h.symm natText_ne_minus
    | negSucc n =>
      have hmn := natText_injective (List.cons.inj h).2
      rw [Nat.succ.inj hmn]

theorem nul_not_mem_intText (n : ℤ) : nul ∉ intText n := by
  cases n with
  | ofNat n => exact not_mem_natText (by decide) n
  | negSucc n =>
    simp only [intText, List.mem_cons, not_or]
    exact ⟨by decide, not_mem_natText (by decide) _⟩

theorem nul_not_mem_boolText (b : Bool) : nul ∉ boolText b := by
  cases b <;> decide

theorem boolText_injective {a b : Bool} (h : boolText a = boolText b) : a = b := by
  revert h
  cases a <;> cases b <;> decide

/-! The key of a literal says where it ends, even for a string that holds the separator. -/

theorem stringKey_inj {v w x y : Text}
    (h : natText v.length ++ ':' :: v ++ x = natText w.length ++ ':' :: w ++ y) : v = w ∧ x = y := by
  rw [List.append_assoc, List.append_assoc, List.cons_append, List.cons_append] at h
  obtain ⟨hlen, htail⟩ := append_sep_inj (not_mem_natText (by decide) _) (not_mem_natText (by decide) _) h
  exact List.append_inj htail (natText_injective hlen)

theorem key_append_inj {l m : Literal} {x y : Text} (h : l.key ++ nul :: x = m.key ++ nul :: y) :
    l = m ∧ x = y := by
  cases l with
  | integer a =>
    cases m with
    | integer b =>
      simp only [Literal.key, List.append_assoc, List.append_cancel_left_eq] at h
      obtain ⟨hab, hxy⟩ := append_sep_inj (nul_not_mem_intText a) (nul_not_mem_intText b) h
      exact ⟨by rw [intText_injective hab], hxy⟩
    | boolean b => simp [Literal.key, text] at h
    | string w => simp [Literal.key, text] at h
  | boolean a =>
    cases m with
    | integer b => simp [Literal.key, text] at h
    | boolean b =>
      simp only [Literal.key, List.append_assoc, List.append_cancel_left_eq] at h
      obtain ⟨hab, hxy⟩ := append_sep_inj (nul_not_mem_boolText a) (nul_not_mem_boolText b) h
      exact ⟨by rw [boolText_injective hab], hxy⟩
    | string w => simp [Literal.key, text] at h
  | string v =>
    cases m with
    | integer b => simp [Literal.key, text] at h
    | boolean b => simp [Literal.key, text] at h
    | string w =>
      have hsplit : text "string:" ++ (natText v.length ++ ':' :: v ++ nul :: x) =
          text "string:" ++ (natText w.length ++ ':' :: w ++ nul :: y) := by
        simpa only [Literal.key, List.append_assoc] using h
      obtain ⟨rfl, hxy⟩ := stringKey_inj (List.append_cancel_left hsplit)
      exact ⟨rfl, (List.cons.inj hxy).2⟩

theorem key_injective {l m : Literal} (h : l.key = m.key) : l = m :=
  (key_append_inj (x := []) (y := []) (by rw [h])).1

/-- Entries of the same binders join to the same text only for the same literals. -/
theorem joined_entries_inj {bound bound' : List (Binder × Literal)}
    (hb : bound.map Prod.fst = bound'.map Prod.fst)
    (h : joined (tupleOf bound) = joined (tupleOf bound')) : bound = bound' := by
  induction bound generalizing bound' with
  | nil =>
    cases bound' with
    | nil => rfl
    | cons _ _ => cases hb
  | cons bl bound ih =>
    cases bound' with
    | nil => cases hb
    | cons bl' bound' =>
      obtain ⟨b, l⟩ := bl
      obtain ⟨b', l'⟩ := bl'
      simp only [List.map_cons, List.cons.injEq] at hb
      obtain ⟨rfl, hb⟩ := hb
      cases bound with
      | nil =>
        cases bound' with
        | nil =>
          have hkey : l.key = l'.key := by simpa [tupleOf, joined, entry] using h
          rw [key_injective hkey]
        | cons _ _ => cases hb
      | cons bl bound =>
        cases bound' with
        | nil => cases hb
        | cons bl' bound' =>
          have hsplit : l.key ++ nul :: joined (tupleOf (bl :: bound)) =
              l'.key ++ nul :: joined (tupleOf (bl' :: bound')) := by
            simpa [tupleOf, joined, entry] using h
          obtain ⟨rfl, htail⟩ := key_append_inj hsplit
          rw [ih hb htail]

end Nupp.ConstSpecialize
