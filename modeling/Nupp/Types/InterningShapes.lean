import Nupp.Types.Interning

/-! When two shapes have one key: a name that spells fields of its own stands for these
fields. -/

namespace Nupp.interning

open Decimal Delimited Nupp.Data

/-- A list of fields read with names taken for the fields that they spell. -/
inductive Spells : List Slots → List Slots → Prop
  | nil : Spells [] []
  | field (f : Slots) {rest out : List Slots} (h : Spells rest out) :
    Spells (f :: rest) (f :: out)
  | named (f g : Slots) (name : Bytes) {rest out : List Slots}
    (hname : g.name = f.text ++ 44 :: name) (h : Spells ({ g with name } :: rest) out) :
    Spells (g :: rest) (f :: out)

/-- The fields as a shape's key holds them, each with the comma that follows. -/
def body (fields : List Slots) : Bytes := fields.flatMap fun f => f.text ++ [44]

theorem Spells.refl (fields : List Slots) : Spells fields fields := by
  induction fields with
  | nil => exact .nil
  | cons f rest ih => exact .field f ih

theorem Spells.body_eq {fields out : List Slots} (h : Spells fields out) :
    body fields = body out := by
  induction h with
  | nil => rfl
  | field f _ ih => exact congrArg (f.text ++ [44] ++ ·) ih
  | named f g name hname _ ih =>
    simp only [body, List.flatMap_cons, Slots.text, List.append_assoc] at ih ⊢
    rw [← ih, hname]
    simp [Slots.text]

/-- What follows a field's name up to the `=`, with the comma. -/
def Slots.rest (f : Slots) : Bytes :=
  61 :: (slot f.read ++ (ascii ":w=" ++ (slot f.write ++ [44])))

theorem body_cons (f : Slots) (fields : List Slots) :
    body (f :: fields) = f.name ++ 58 :: 114 :: (f.rest ++ body fields) := by
  simp [body, Slots.text, Slots.rest, show ascii ":r=" = [58, 114, 61] from rfl]

theorem Slots.text_comma (f : Slots) (z : Bytes) :
    f.text ++ 44 :: z = f.name ++ 58 :: 114 :: (f.rest ++ z) := by
  simp [Slots.text, Slots.rest, show ascii ":r=" = [58, 114, 61] from rfl]

theorem Slots.clear_rest (f : Slots) : Clear 58 114 (114 :: f.rest) := by
  have hw : Clear 58 114 (ascii ":w=") :=
    Clear.cons_mark (c := 119) (by decide) (clear_of_not_mem (by decide))
  have hfront : Clear (58 : UInt8) 114 [114, 61] := clear_of_not_mem (by decide)
  have hcomma : Clear (58 : UInt8) 114 [44] := clear_of_not_mem (by decide)
  have hall := hfront.append ((clear_slot f.read).append
    (hw.append ((clear_slot f.write).append hcomma)))
  simpa [Slots.rest] using hall

section Cut

variable {S : Set Id}

def Within (S : Set Id) (ids : List Id) : Prop := ∀ a ∈ ids, a ∈ S

theorem Slots.rest_cut (hS : Consistent S) {f g : Slots} (hf : Within S f.ids)
    (hg : Within S g.ids) {x y : Bytes} (h : f.rest ++ x = g.rest ++ y) :
    f.read = g.read ∧ f.write = g.write ∧ x = y := by
  have hread : ∀ f : Slots, Within S f.ids → f.read ∈ {o : Option Id | ∀ a ∈ o, a ∈ S} :=
    fun f hf a ha => hf a (List.mem_append_left _ (Option.mem_toList.mpr ha))
  have hwrite : ∀ f : Slots, Within S f.ids → f.write ∈ {o : Option Id | ∀ a ∈ o, a ∈ S} :=
    fun f hf a ha => hf a (List.mem_append_right _ (Option.mem_toList.mpr ha))
  simp only [Slots.rest, List.cons_append, List.append_assoc, List.cons.injEq, true_and,
    List.nil_append] at h
  obtain ⟨hr, hw⟩ := slot_delimits hS f.read (hread f hf) g.read (hread g hg) _ _
    (stops_of_head rfl rfl) (stops_of_head rfl rfl) h
  obtain ⟨hw, hxy⟩ := slot_delimits hS f.write (hwrite f hf) g.write (hwrite g hg) _ _
    (stops_cons.mpr rfl) (stops_cons.mpr rfl) (List.append_cancel_left hw)
  exact ⟨hr, hw, (List.cons.inj hxy).2⟩

/-- A name longer than the field in front of which it stands begins with that field. -/
theorem name_longer {f : Slots} {u x y : Bytes} (hu : u ≠ [])
    (h : 58 :: 114 :: (f.rest ++ x) = u ++ 58 :: 114 :: y) :
    ∃ name, f.name ++ u = f.text ++ 44 :: name ∧ x = name ++ 58 :: 114 :: y := by
  obtain ⟨c, u, rfl⟩ := List.exists_cons_of_ne_nil hu
  simp only [List.cons_append, List.cons.injEq] at h
  obtain ⟨rfl, h⟩ := h
  obtain ⟨name, rfl, hx⟩ := f.clear_rest.behind h
  exact ⟨name, by simp [f.text_comma], hx⟩

/-- Where one text holds two fields at its front, either the fields are the same or the longer
name spells the other field. -/
theorem field_cut (hS : Consistent S) {f g : Slots} (hf : Within S f.ids) (hg : Within S g.ids)
    {rest' : List Slots} {u x e' : Bytes} (hname : g.name = f.name ++ u)
    (h : 58 :: 114 :: (f.rest ++ x) = u ++ 58 :: 114 :: (g.rest ++ (body rest' ++ e'))) :
    (g = f ∧ x = body rest' ++ e') ∨
      ∃ name, g.name = f.text ++ 44 :: name ∧ x = body ({ g with name } :: rest') ++ e' := by
  by_cases hu : u = []
  · subst hu
    simp only [List.nil_append, List.cons.injEq, true_and] at h
    obtain ⟨hread, hwrite, hx⟩ := f.rest_cut hS hf hg h
    rw [List.append_nil] at hname
    exact .inl ⟨by cases f; cases g; simp_all, hx⟩
  · obtain ⟨name, hspelled, hx⟩ := name_longer hu h
    refine .inr ⟨name, hname.trans hspelled, ?_⟩
    rw [hx, body_cons]
    simp [Slots.rest]

theorem length_body_named {f g : Slots} {name : Bytes} (hname : g.name = f.text ++ 44 :: name)
    (rest : List Slots) :
    (body ({ g with name } :: rest)).length < (body (g :: rest)).length := by
  have hlength := congrArg List.length hname
  simp only [List.length_append, List.length_cons] at hlength
  simp only [body_cons, List.length_append, List.length_cons, Slots.rest]
  omega

theorem length_body_lt (f : Slots) (rest : List Slots) :
    (body rest).length < (body (f :: rest)).length := by
  simp only [body_cons, List.length_append, List.length_cons]
  omega

/-- Two lists of fields with one text, in front of texts without `:r`, spell one list. -/
theorem body_cut (hS : Consistent S) {e e' : Bytes} (he : Clear 58 114 e)
    (he' : Clear 58 114 e') {fields fields' : List Slots}
    (hf : Within S (fields.flatMap Slots.ids)) (hf' : Within S (fields'.flatMap Slots.ids))
    (h : body fields ++ e = body fields' ++ e') :
    (∃ out, Spells fields out ∧ Spells fields' out) ∧ e = e' := by
  -- one side has ended where the other begins a field
  have hend : ∀ {e : Bytes} {f : Slots} {fields : List Slots} {x : Bytes}, Clear 58 114 e →
      e ≠ body (f :: fields) ++ x := by
    intro e f fields x he h
    rw [body_cons, List.append_assoc, List.cons_append, List.cons_append,
      ← List.append_nil e] at h
    obtain ⟨w, -, hw⟩ := he.behind h
    simp at hw
  generalize hn : (body fields).length + (body fields').length = n
  induction n using Nat.strong_induction_on generalizing fields fields' with
  | _ n ih =>
    cases fields with
    | nil =>
      cases fields' with
      | nil => exact ⟨⟨[], .nil, .nil⟩, h⟩
      | cons g rest' => exact absurd h (hend he)
    | cons f rest =>
      cases fields' with
      | nil => exact absurd h.symm (hend he')
      | cons g rest' =>
        simp only [List.flatMap_cons, Within, List.forall_mem_append] at hf hf'
        obtain ⟨hf, hrest⟩ := hf
        obtain ⟨hg, hrest'⟩ := hf'
        have hlt := length_body_lt f rest
        have hlt' := length_body_lt g rest'
        have hcons := h
        simp only [body_cons, List.append_assoc, List.cons_append] at hcons
        rcases List.append_eq_append_iff.mp hcons with ⟨u, hname, hu⟩ | ⟨u, hname, hu⟩
        · rcases field_cut hS hf hg hname hu with ⟨rfl, hx⟩ | ⟨name, hspelled, hx⟩
          · obtain ⟨⟨out, hout, hout'⟩, hee⟩ := ih _ (by omega) hrest hrest' hx rfl
            exact ⟨⟨g :: out, .field g hout, .field g hout'⟩, hee⟩
          · have hnamed := length_body_named hspelled rest'
            have hwithin : Within S (({ g with name } :: rest').flatMap Slots.ids) :=
              List.forall_mem_append.mpr ⟨hg, hrest'⟩
            obtain ⟨⟨out, hout, hout'⟩, hee⟩ := ih _ (by omega) hrest hwithin hx rfl
            exact ⟨⟨f :: out, .field f hout, .named f g name hspelled hout'⟩, hee⟩
        · rcases field_cut hS hg hf hname hu with ⟨rfl, hx⟩ | ⟨name, hspelled, hx⟩
          · obtain ⟨⟨out, hout, hout'⟩, hee⟩ := ih _ (by omega) hrest hrest' hx.symm rfl
            exact ⟨⟨f :: out, .field f hout, .field f hout'⟩, hee⟩
          · have hnamed := length_body_named hspelled rest
            have hwithin : Within S (({ f with name } :: rest).flatMap Slots.ids) :=
              List.forall_mem_append.mpr ⟨hf, hrest⟩
            obtain ⟨⟨out, hout, hout'⟩, hee⟩ := ih _ (by omega) hwithin hrest' hx.symm rfl
            exact ⟨⟨g :: out, .named g f name hspelled hout, .field g hout'⟩, hee⟩

theorem Indexer.clear_text (ix : Indexer) : Clear 58 114 ix.text := by
  have hbracket : Clear 58 114 (ascii "[r=") := clear_of_not_mem (by decide)
  have hw : Clear 58 114 (ascii ":w=") :=
    Clear.cons_mark (c := 119) (by decide) (clear_of_not_mem (by decide))
  have hcolon : ∀ o : Option Id, Clear 58 114 (ascii ":" ++ slot o) := by
    intro o
    have hslot := clear_slot o
    cases o with
    | none => exact Clear.cons_mark (by decide) hslot
    | some a =>
      obtain ⟨c, z, htext, hc⟩ := a.head_text
      have hr : c ≠ 114 := by
        rintro rfl
        exact absurd hc (by decide)
      change Clear 58 114 (58 :: a.text)
      change Clear 58 114 a.text at hslot
      rw [htext] at hslot ⊢
      exact Clear.cons_mark hr hslot
  have hclose : Clear (58 : UInt8) 114 (ascii "]") := clear_of_not_mem (by decide)
  have hall := ((((hbracket.append (clear_slot ix.readKey)).append (hcolon ix.readValue)).append
    hw).append (clear_slot ix.writeKey)).append ((hcolon ix.writeValue).append hclose)
  simpa [Indexer.text] using hall

theorem Indexer.text_cut (hS : Consistent S) {ix ix' : Indexer} (hix : Within S ix.ids)
    (hix' : Within S ix'.ids) {x y : Bytes} (h : ix.text ++ x = ix'.text ++ y) :
    ix = ix' ∧ x = y := by
  simp only [Indexer.ids, Within, List.forall_mem_append, Option.mem_toList] at hix hix'
  obtain ⟨⟨⟨hrk, hrv⟩, hwk⟩, hwv⟩ := hix
  obtain ⟨⟨⟨hrk', hrv'⟩, hwk'⟩, hwv'⟩ := hix'
  simp only [Indexer.text, List.append_assoc] at h
  have hcut := slot_delimits hS
  obtain ⟨h₁, h⟩ := hcut _ hrk _ hrk' _ _ (stops_of_head rfl rfl) (stops_of_head rfl rfl)
    (List.append_cancel_left h)
  obtain ⟨h₂, h⟩ := hcut _ hrv _ hrv' _ _ (stops_of_head rfl rfl) (stops_of_head rfl rfl)
    (List.append_cancel_left h)
  obtain ⟨h₃, h⟩ := hcut _ hwk _ hwk' _ _ (stops_of_head rfl rfl) (stops_of_head rfl rfl)
    (List.append_cancel_left h)
  obtain ⟨h₄, h⟩ := hcut _ hwv _ hwv' _ _ (stops_of_head rfl rfl) (stops_of_head rfl rfl)
    (List.append_cancel_left h)
  cases ix
  cases ix'
  simp_all

theorem flags_cut {fresh fresh' closed closed' : Bool}
    (h : flags fresh closed = flags fresh' closed') : fresh = fresh' ∧ closed = closed' := by
  revert h
  cases fresh <;> cases fresh' <;> cases closed <;> cases closed' <;> decide

/-- `shape`: the text between the parentheses, and what follows it. -/
def shapeKey (fields : List Slots) (ix : Indexer) (fresh closed : Bool) : Bytes :=
  ascii "shape(" ++ joined 44 (shapeParts fields ix) ++ ascii ")" ++ flags fresh closed

/-- Two shapes have one key when they differ at most in what fields their names spell. -/
theorem shapeKey_eq_iff (hS : Consistent S) {fields fields' : List Slots} {ix ix' : Indexer}
    {fresh fresh' closed closed' : Bool} (hf : Within S (fields.flatMap Slots.ids))
    (hf' : Within S (fields'.flatMap Slots.ids)) (hix : Within S ix.ids)
    (hix' : Within S ix'.ids) :
    shapeKey fields ix fresh closed = shapeKey fields' ix' fresh' closed' ↔
      (∃ out, Spells fields out ∧ Spells fields' out) ∧
        ix = ix' ∧ fresh = fresh' ∧ closed = closed' := by
  have hkey : ∀ fields ix fresh closed, shapeKey fields ix fresh closed =
      ascii "shape(" ++ (body fields ++ (ix.text ++ (ascii ")" ++ flags fresh closed))) := by
    intro fields ix fresh closed
    simp [shapeKey, shapeParts, joined_append_last, body, List.flatMap_map]
  have hclear : ∀ (ix : Indexer) fresh closed,
      Clear 58 114 (ix.text ++ (ascii ")" ++ flags fresh closed)) := by
    intro ix fresh closed
    exact ix.clear_text.append (clear_of_not_mem (by cases fresh <;> cases closed <;> decide))
  rw [hkey, hkey]
  constructor
  · intro h
    obtain ⟨hspelled, hend⟩ := body_cut hS (hclear ix fresh closed) (hclear ix' fresh' closed')
      hf hf' (List.append_cancel_left h)
    obtain ⟨rfl, hclose⟩ := Indexer.text_cut hS hix hix' hend
    exact ⟨hspelled, rfl, flags_cut (List.append_cancel_left hclose)⟩
  · rintro ⟨⟨out, hout, hout'⟩, rfl, rfl, rfl⟩
    rw [hout.body_eq, hout'.body_eq]

end Cut

end Nupp.interning
