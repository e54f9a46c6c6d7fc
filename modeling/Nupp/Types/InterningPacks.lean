import Nupp.Types.InterningShapes

/-! The keys of tuples, indexers, projections and packs, which determine what they are of. -/

namespace Nupp.interning

open Decimal Delimited Nupp.Data

variable {S : Set Id} {sort : List Slots → List Slots}

theorem tupleKey_injective (hS : Consistent S) {elems elems' : List Id} (h₁ : Within S elems)
    (h₂ : Within S elems')
    (h : ascii "tuple(" ++ joined 44 (elems.map Id.text) ++ ascii ")" =
      ascii "tuple(" ++ joined 44 (elems'.map Id.text) ++ ascii ")") : elems = elems' := by
  simp only [List.append_assoc] at h
  have hclose : ∀ a ∈ S, ∀ z, ascii ")" ≠ a.text ++ z :=
    fun a _ z heq => a.text_append_ne (c := 41) (by decide) z [] heq.symm
  exact (joined_unique (Id.delimits hS) (fun _ => stops_cons.mpr rfl) (x := ascii ")")
    (y := ascii ")") (stops_cons.mpr rfl) (stops_cons.mpr rfl) (by decide) (by decide) hclose hclose
    h₁ h₂ (List.append_cancel_left h)).1

theorem indexerKey_injective (hS : Consistent S) {ix ix' : Indexer} (hix : Within S ix.ids)
    (hix' : Within S ix'.ids)
    (h : (Call.indexer ix).key sort = (Call.indexer ix').key sort) : ix = ix' := by
  simp only [Indexer.ids, Within, List.forall_mem_append, Option.mem_toList] at hix hix'
  obtain ⟨⟨⟨hrk, hrv⟩, hwk⟩, hwv⟩ := hix
  obtain ⟨⟨⟨hrk', hrv'⟩, hwk'⟩, hwv'⟩ := hix'
  simp only [Call.key, List.append_assoc] at h
  have hcut := slot_delimits hS
  obtain ⟨h₁, h⟩ := hcut _ hrk _ hrk' _ _ (stops_of_head rfl rfl) (stops_of_head rfl rfl)
    (List.append_cancel_left h)
  obtain ⟨h₂, h⟩ := hcut _ hrv _ hrv' _ _ (stops_of_head rfl rfl) (stops_of_head rfl rfl)
    (List.append_cancel_left h)
  obtain ⟨h₃, h⟩ := hcut _ hwk _ hwk' _ _ (stops_of_head rfl rfl) (stops_of_head rfl rfl)
    (List.append_cancel_left h)
  obtain ⟨h₄, -⟩ := hcut _ hwv _ hwv' _ _ (stops_cons.mpr rfl) (stops_cons.mpr rfl)
    (List.append_cancel_left h)
  cases ix
  cases ix'
  simp_all

theorem projectionKey_injective (hS : Consistent S) {a b : Id} (ha : a ∈ S) (hb : b ∈ S)
    {name name' : Bytes}
    (h : (Call.projection a name).key sort = (Call.projection b name').key sort) :
    a = b ∧ name = name' := by
  simp only [Call.key, List.append_assoc] at h
  obtain ⟨rfl, hname⟩ := Id.delimits hS a ha b hb _ _ (stops_of_head rfl rfl)
    (stops_of_head rfl rfl) (List.append_cancel_left h)
  exact ⟨rfl, List.append_cancel_right (List.append_cancel_left hname)⟩

section Packs

/-- How a pack goes on after a position: a comma, the closing parenthesis or a tail, which may
begin with a word. -/
def Goes (w : Bytes) (c : UInt8) : Prop :=
  w = [] ∧ c ∈ [44, 41, 46, 33] ∨ c = 40 ∧ (w = ascii "unpackof" ∨ w = ascii "slice")

theorem Goes.word {w : Bytes} {c : UInt8} (h : Goes w c) :
    (∀ b ∈ w, isWord b = true) ∧ isWord c = false ∧ c ≠ 58 := by
  rcases h with ⟨rfl, hc⟩ | ⟨rfl, rfl | rfl⟩
  · simp only [List.mem_cons, List.not_mem_nil, or_false] at hc
    rcases hc with rfl | rfl | rfl | rfl <;> decide +kernel
  · decide +kernel
  · decide +kernel

def Ends (x : Bytes) : Prop := ∃ w c z, x = w ++ c :: z ∧ Goes w c

theorem Ends.stops_isDigit {x : Bytes} (h : Ends x) : Stops isDigit x := by
  obtain ⟨w, c, z, rfl, ⟨rfl, hc⟩ | ⟨rfl, rfl | rfl⟩⟩ := h
  · simp only [List.mem_cons, List.not_mem_nil, or_false] at hc
    rcases hc with rfl | rfl | rfl | rfl <;> exact stops_cons.mpr rfl
  · exact stops_of_head rfl rfl
  · exact stops_of_head rfl rfl

theorem Ends.ne_cons {x z : Bytes} {c : UInt8} (h : Ends x)
    (hc : c ∉ [44, 41, 46, 33, 117, 115]) : x ≠ c :: z := by
  rintro rfl
  obtain ⟨w, d, y, heq, ⟨rfl, hd⟩ | ⟨-, rfl | rfl⟩⟩ := h
  · obtain ⟨rfl, -⟩ := List.cons.inj heq
    simp only [List.mem_cons, List.not_mem_nil, or_false, not_or] at hd hc
    tauto
  · obtain ⟨rfl, -⟩ := List.cons.inj heq
    exact hc (by decide)
  · obtain ⟨rfl, -⟩ := List.cons.inj heq
    exact hc (by decide)

/-- A label ends where a pack goes on, also in front of a tail that begins with a word. -/
theorem label_cut {u v x y : Bytes} (hu : ∀ b ∈ u, isWord b = true)
    (hv : ∀ b ∈ v, isWord b = true) (hx : Ends x) (hy : Ends y) (h : u ++ x = v ++ y) :
    u = v ∧ x = y := by
  obtain ⟨w, c, z, rfl, hwc⟩ := hx
  obtain ⟨w', c', z', rfl, hwc'⟩ := hy
  have hword : ∀ {u w : Bytes} {c : UInt8}, (∀ b ∈ u, isWord b = true) → Goes w c →
      ∀ b ∈ u ++ w, isWord b = true :=
    fun hu hgoes => List.forall_mem_append.mpr ⟨hu, hgoes.word.1⟩
  rw [← List.append_assoc, ← List.append_assoc] at h
  obtain ⟨hwords, hrest⟩ := run_unique (hword hu hwc) (hword hv hwc')
    (stops_cons.mpr hwc.word.2.1) (stops_cons.mpr hwc'.word.2.1) h
  obtain ⟨rfl, rfl⟩ := List.cons.inj hrest
  -- the two words of a tail differ in their last letter
  have hlast : ∀ u v : Bytes, u ++ ascii "unpackof" ≠ v ++ ascii "slice" := by
    intro u v heq
    rw [show ascii "unpackof" = ascii "unpacko" ++ [102] from rfl,
      show ascii "slice" = ascii "slic" ++ [101] from rfl, ← List.append_assoc,
      ← List.append_assoc] at heq
    exact absurd (List.append_inj' heq rfl).2 (by decide)
  rcases hwc with ⟨rfl, hc⟩ | ⟨rfl, hw⟩
  · rcases hwc' with ⟨rfl, -⟩ | ⟨rfl, -⟩
    · simp only [List.append_nil] at hwords
      exact ⟨hwords, rfl⟩
    · exact absurd hc (by decide)
  · rcases hwc' with ⟨-, hc⟩ | ⟨-, hw'⟩
    · exact absurd hc (by decide)
    · rcases hw with rfl | rfl <;> rcases hw' with rfl | rfl
      · exact ⟨List.append_cancel_right hwords, rfl⟩
      · exact absurd hwords (hlast u v)
      · exact absurd hwords.symm (hlast v u)
      · exact ⟨List.append_cancel_right hwords, rfl⟩

theorem Entry.text_append (e : Entry) (x : Bytes) :
    e.text ++ x = e.mode.bytes ++ 58 :: (e.type.text ++
      ((if e.name.bytes = [] then [] else 61 :: e.name.bytes) ++ x)) := by
  simp [Entry.text, show ascii ":" = [58] from rfl, show ascii "=" = [61] from rfl]

theorem entry_delimits (hS : Consistent S) :
    Delimits {e : Entry | e.type ∈ S} Entry.text Ends := by
  intro a ha b hb x y hx hy h
  simp only [Entry.text_append] at h
  obtain ⟨hmode, hcolon⟩ := run_unique a.mode.plain b.mode.plain (stops_cons.mpr (by decide +kernel))
    (stops_cons.mpr (by decide +kernel)) h
  have hstops : ∀ (n : Bytes) {x : Bytes}, Ends x →
      Stops isDigit ((if n = [] then [] else 61 :: n) ++ x) := by
    intro n x hx
    by_cases hn : n = []
    · simpa [hn] using hx.stops_isDigit
    · simp only [if_neg hn]
      exact stops_cons.mpr (by decide +kernel)
  obtain ⟨htype, hlabel⟩ := Id.delimits hS _ ha _ hb _ _ (hstops _ hx) (hstops _ hy)
    (List.cons.inj hcolon).2
  have hname : a.name.bytes = b.name.bytes ∧ x = y := by
    by_cases hn : a.name.bytes = [] <;> by_cases hn' : b.name.bytes = []
    · simp only [if_pos hn, if_pos hn'] at hlabel
      exact ⟨hn.trans hn'.symm, hlabel⟩
    · simp only [if_pos hn, if_neg hn'] at hlabel
      exact absurd hlabel (hx.ne_cons (by decide))
    · simp only [if_neg hn, if_pos hn'] at hlabel
      exact absurd hlabel.symm (hy.ne_cons (by decide))
    · simp only [if_neg hn, if_neg hn'] at hlabel
      exact label_cut a.name.plain b.name.plain hx hy (List.cons.inj hlabel).2
  obtain ⟨type, ⟨mode, _⟩, name, _⟩ := a
  obtain ⟨type', ⟨mode', _⟩, name', _⟩ := b
  simp_all

/-- The text from a pack's tail on. -/
def tailText (tail : Option PackTail) : Bytes := packTailId tail ++ ascii ")"

theorem ends_tailText (tail : Option PackTail) : Ends (tailText tail) := by
  rcases tail with _ | type | var | type | id | _
  · exact ⟨[], 41, _, rfl, .inl ⟨rfl, by decide⟩⟩
  · exact ⟨[], 46, _, rfl, .inl ⟨rfl, by decide⟩⟩
  · exact ⟨[], 33, _, rfl, .inl ⟨rfl, by decide⟩⟩
  · exact ⟨ascii "unpackof", 40, _, rfl, .inr ⟨rfl, .inl rfl⟩⟩
  · exact ⟨ascii "slice", 40, _, rfl, .inr ⟨rfl, .inr rfl⟩⟩
  · exact ⟨[], 46, _, rfl, .inl ⟨rfl, by decide⟩⟩

theorem tailText_ne_entry (tail : Option PackTail) (e : Entry) (z : Bytes) :
    tailText tail ≠ e.text ++ z := by
  intro h
  obtain ⟨w, c, y, htext, hgoes⟩ := ends_tailText tail
  rw [htext, Entry.text_append] at h
  obtain ⟨-, hcolon⟩ := run_unique hgoes.word.1 e.mode.plain (stops_cons.mpr hgoes.word.2.1)
    (stops_cons.mpr (by decide +kernel)) h
  exact hgoes.word.2.2 (List.cons.inj hcolon).1

/-- The first byte of a pack's tail. -/
def tailHead : Option PackTail → UInt8
  | none => 41
  | some (.homogeneous ..) | some .unknown => 46
  | some (.generic _) => 33
  | some (.computed _) => 117
  | some (.slice _) => 115

theorem head_tailText (tail : Option PackTail) : (tailText tail).head? = some (tailHead tail) := by
  rcases tail with _ | type | var | type | id | _ <;> rfl

theorem tailText_injective (hS : Consistent S) {tail tail' : Option PackTail}
    (ht : Within S (tail.toList.flatMap PackTail.ids))
    (ht' : Within S (tail'.toList.flatMap PackTail.ids)) (h : tailText tail = tailText tail') :
    tail.map PackTail.filled = tail'.map PackTail.filled := by
  have hhead : tailHead tail = tailHead tail' := by
    have hsome := congrArg List.head? h
    rw [head_tailText, head_tailText] at hsome
    exact Option.some.inj hsome
  have hunknown : ∀ (type : Id) (mode : Word),
      mode.bytes ++ (ascii ":" ++ (type.text ++ ascii ")")) ≠ ascii "unknown" ++ ascii ")" := by
    intro type mode heq
    obtain ⟨-, hrest⟩ := run_unique mode.plain (by decide +kernel) (stops_of_head rfl rfl)
      (stops_cons.mpr (by decide +kernel)) heq
    exact absurd (List.cons.inj hrest).1 (by decide)
  have hcut := Id.delimits hS
  rcases tail with _ | type | var | type | id | _ <;>
    rcases tail' with _ | type' | var' | type' | id' | _ <;>
    try (simp [tailHead] at hhead; done)
  · rfl
  · rename_i mode mode'
    simp only [tailText, packTailId, List.append_assoc] at h
    obtain ⟨hmode, hcolon⟩ := run_unique (mode.getD plain).plain (mode'.getD plain).plain
      (stops_of_head rfl rfl) (stops_of_head rfl rfl) (List.append_cancel_left h)
    obtain ⟨rfl, -⟩ := hcut type (ht _ (by simp [PackTail.ids])) type' (ht' _ (by simp [PackTail.ids]))
      _ _ (stops_cons.mpr rfl) (stops_cons.mpr rfl) (List.append_cancel_left hcolon)
    have hmodes : mode.getD plain = mode'.getD plain := by
      generalize mode.getD plain = m at hmode ⊢
      generalize mode'.getD plain = m' at hmode ⊢
      cases m
      cases m'
      simp_all
    simp [PackTail.filled, hmodes]
  · simp only [tailText, packTailId, List.append_assoc] at h
    exact absurd (List.append_cancel_left h) (hunknown _ _)
  · simp only [tailText, packTailId, List.append_assoc] at h
    obtain ⟨hvar, -⟩ := hcut var.id (ht _ (by simp [PackTail.ids])) var'.id
      (ht' _ (by simp [PackTail.ids])) _ _ (stops_of_head rfl rfl) (stops_of_head rfl rfl) h
    simp only [PackVar.id, Id.serial.injEq, true_and] at hvar
    cases var
    cases var'
    simp_all
  · simp only [tailText, packTailId, List.append_assoc] at h
    obtain ⟨rfl, -⟩ := hcut type (ht _ (by simp [PackTail.ids])) type' (ht' _ (by simp [PackTail.ids]))
      _ _ (stops_of_head rfl rfl) (stops_of_head rfl rfl) (List.append_cancel_left h)
    rfl
  · simp only [tailText, packTailId, List.append_assoc] at h
    rw [List.append_cancel_right (List.append_cancel_left h)]
  · simp only [tailText, packTailId, List.append_assoc] at h
    exact absurd (List.append_cancel_left h.symm) (hunknown _ _)
  · rfl

theorem within_entries {head : List Id} (h : Within S head) (modes names : List Word) :
    ∀ e ∈ entries head modes names, e.type ∈ S := by
  induction head generalizing modes names with
  | nil => simp [entries]
  | cons t head ih =>
    intro e he
    rcases List.mem_cons.mp he with rfl | he
    · exact h t (by simp)
    · exact ih (fun a ha => h a (by simp [ha])) _ _ e he

theorem packKey_injective (hS : Consistent S) {head head' : List Id}
    {tail tail' : Option PackTail} {modes modes' names names' : List Word}
    (hA : Within S (Call.pack head tail modes names).ids)
    (hB : Within S (Call.pack head' tail' modes' names').ids)
    (h : (Call.pack head tail modes names).key sort =
      (Call.pack head' tail' modes' names').key sort) :
    entries head modes names = entries head' modes' names' ∧
      tail.map PackTail.filled = tail'.map PackTail.filled := by
  obtain ⟨hhead, htail⟩ := List.forall_mem_append.mp hA
  obtain ⟨hhead', htail'⟩ := List.forall_mem_append.mp hB
  simp only [Call.key, List.append_assoc] at h
  have hcomma : ∀ tail, (tailText tail).head? ≠ some 44 := by
    intro tail
    rw [head_tailText]
    rcases tail with _ | type | var | type | id | _ <;> simp [tailHead]
  obtain ⟨hentries, htext⟩ := joined_unique (entry_delimits hS)
    (fun z => ⟨[], 44, z, rfl, .inl ⟨rfl, by decide⟩⟩) (ends_tailText tail) (ends_tailText tail')
    (hcomma tail) (hcomma tail') (fun e _ => tailText_ne_entry tail e)
    (fun e _ => tailText_ne_entry tail' e) (within_entries hhead modes names)
    (within_entries hhead' modes' names') (List.append_cancel_left h)
  exact ⟨hentries, tailText_injective hS htail htail' htext⟩

theorem packKey_eq {tail tail' : Option PackTail}
    (h : tail.map PackTail.filled = tail'.map PackTail.filled) :
    packTailId tail = packTailId tail' := by
  have hfilled : ∀ tail : Option PackTail, packTailId (tail.map PackTail.filled) = packTailId tail := by
    intro tail
    rcases tail with _ | type | var | type | id | _ <;> rfl
  rw [← hfilled tail, h, hfilled tail']

end Packs

end Nupp.interning
