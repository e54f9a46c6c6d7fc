import Mathlib.Data.List.Sort
import Nupp.Types.InterningPacks

/-! Two calls of the structural constructors in one process give one object exactly for equal
arguments, unless names of fields spell fields or a list repeats a name. -/

namespace Nupp.interning

open Decimal Delimited Nupp.Data

/-- No two shapes are confused: their fields in order, with each name read as the fields that it
spells, are one list only for equal fields, and `sort` puts fields of one name in one order. -/
def Told (sort : List Slots → List Slots) : Call → Call → Prop
  | .shape fields index fresh closed, .shape fields' index' fresh' closed' =>
    let sorted := sort (fields.map Field.slots)
    let sorted' := sort (fields'.map Field.slots)
    index.getD absent = index'.getD absent → fresh = fresh' → closed = closed' →
      ((∃ out, Spells sorted out ∧ Spells sorted' out) → sorted.Perm sorted') ∧
      (sorted.Perm sorted' →
        ∀ name, sorted.filter (·.name = name) = sorted'.filter (·.name = name))
  | _, _ => True

section Sorted

variable {s t : List Slots}

def InOrder (s : List Slots) : Prop := s.Pairwise fun f g => f.name ≤ g.name

theorem InOrder.names_eq (hs : InOrder s) (ht : InOrder t) (h : s.Perm t) :
    s.map Slots.name = t.map Slots.name :=
  (h.map Slots.name).eq_of_pairwise (fun _ _ _ _ => List.le_antisymm)
    (List.pairwise_map.mpr hs) (List.pairwise_map.mpr ht)

/-- Lists with the same names in order are equal when the fields of each name are. -/
theorem eq_of_filters (hnames : s.map Slots.name = t.map Slots.name)
    (h : ∀ name, s.filter (·.name = name) = t.filter (·.name = name)) : s = t := by
  induction s generalizing t with
  | nil => simpa using hnames.symm
  | cons f s ih =>
    cases t with
    | nil => simp at hnames
    | cons g t =>
      obtain ⟨hname, hrest⟩ := List.cons.inj hnames
      have hfront := h f.name
      simp only [List.filter_cons, hname, decide_true, if_true, List.cons.injEq] at hfront
      obtain ⟨rfl, -⟩ := hfront
      rw [ih hrest fun name => ?_]
      have hfilter := h name
      by_cases hf : f.name = name <;> simpa [List.filter_cons, hf] using hfilter

/-- The text of fields with given names determines their types. -/
theorem eq_of_body {S : Set Id} (hS : Consistent S) (hs : Within S (s.flatMap Slots.ids))
    (ht : Within S (t.flatMap Slots.ids)) (hnames : s.map Slots.name = t.map Slots.name)
    (h : body s = body t) : s = t := by
  induction s generalizing t with
  | nil => simpa using hnames.symm
  | cons f s ih =>
    cases t with
    | nil => simp at hnames
    | cons g t =>
      obtain ⟨hname, htail⟩ := List.cons.inj hnames
      simp only [List.flatMap_cons, Within, List.forall_mem_append] at hs ht
      rw [body_cons, body_cons, hname] at h
      have hrest := (List.cons.inj (List.cons.inj (List.append_cancel_left h)).2).2
      obtain ⟨hread, hwrite, hbody⟩ := f.rest_cut hS hs.1 ht.1 hrest
      rw [ih hs.2 ht.2 htail hbody]
      cases f
      cases g
      simp_all

end Sorted

section Keys

variable {S : Set Id} {sort : List Slots → List Slots}

/-- The first byte of a constructor's keys. -/
def Call.letter : Call → UInt8
  | .shape .. => 115
  | .tuple _ => 116
  | .indexer _ => 105
  | .pack .. => 112
  | .projection .. => 33

theorem Call.head_key (c : Call) : (c.key sort).head? = some c.letter := by
  cases c <;> rfl

theorem Call.letter_of_structure {A B : Call} (h : A.structure = B.structure) :
    A.letter = B.letter := by
  cases A <;> cases B <;> first | rfl | cases h

theorem told_of_letter {A B : Call} (h : A.letter ≠ B.letter) : Told sort A B := by
  cases A <;> cases B <;> trivial

theorem sorted_within (hperm : ∀ l, (sort l).Perm l) {fields : List Slots}
    (h : Within S (fields.flatMap Slots.ids)) : Within S ((sort fields).flatMap Slots.ids) := by
  intro a ha
  obtain ⟨f, hf, haf⟩ := List.mem_flatMap.mp ha
  exact h a (List.mem_flatMap.mpr ⟨f, (hperm fields).mem_iff.mp hf, haf⟩)

theorem shape_told_iff (hS : Consistent S) (hperm : ∀ l, (sort l).Perm l)
    (hsorted : ∀ l, InOrder (sort l)) {fields fields' : List Field} {index index' : Option Indexer}
    {fresh fresh' closed closed' : Bool} (hA : Within S (Call.shape fields index fresh closed).ids)
    (hB : Within S (Call.shape fields' index' fresh' closed').ids) :
    ((Call.shape fields index fresh closed).key sort =
        (Call.shape fields' index' fresh' closed').key sort ↔
      (Call.shape fields index fresh closed).structure =
        (Call.shape fields' index' fresh' closed').structure) ↔
    Told sort (.shape fields index fresh closed) (.shape fields' index' fresh' closed') := by
  obtain ⟨hfields, hindex⟩ := List.forall_mem_append.mp hA
  obtain ⟨hfields', hindex'⟩ := List.forall_mem_append.mp hB
  have hwithin := sorted_within hperm hfields
  have hwithin' := sorted_within hperm hfields'
  have hkey : shapeKey (sort (fields.map Field.slots)) _ fresh closed =
      shapeKey (sort (fields'.map Field.slots)) _ fresh' closed' ↔ _ :=
    shapeKey_eq_iff hS hwithin hwithin' hindex hindex'
  have hperms : (fields.map Field.slots).Perm (fields'.map Field.slots) ↔
      (sort (fields.map Field.slots)).Perm (sort (fields'.map Field.slots)) :=
    ⟨fun h => (hperm _).trans (h.trans (hperm _).symm),
      fun h => (hperm _).symm.trans (h.trans (hperm _))⟩
  change (shapeKey _ _ _ _ = shapeKey _ _ _ _ ↔ _) ↔ _
  simp only [Call.structure, Structure.shape.injEq, Multiset.coe_eq_coe, hperms]
  rw [hkey]
  simp only [Told]
  generalize hs : sort (fields.map Field.slots) = s at *
  generalize hs' : sort (fields'.map Field.slots) = s' at *
  have horder : InOrder s := hs ▸ hsorted _
  have horder' : InOrder s' := hs' ▸ hsorted _
  constructor
  · intro h hix hfresh hclosed
    refine ⟨fun hout => (h.mp ⟨hout, hix, hfresh, hclosed⟩).1, fun hp => ?_⟩
    obtain ⟨⟨out, hout, hout'⟩, -⟩ := h.mpr ⟨hp, hix, hfresh, hclosed⟩
    have heq := eq_of_body hS hwithin hwithin' (horder.names_eq horder' hp)
      (hout.body_eq.trans hout'.body_eq.symm)
    simp [heq]
  · intro h
    constructor
    · rintro ⟨hout, hix, hfresh, hclosed⟩
      exact ⟨(h hix hfresh hclosed).1 hout, hix, hfresh, hclosed⟩
    · rintro ⟨hp, hix, hfresh, hclosed⟩
      have heq := eq_of_filters (horder.names_eq horder' hp) ((h hix hfresh hclosed).2 hp)
      exact ⟨⟨s', heq ▸ Spells.refl s', Spells.refl s'⟩, hix, hfresh, hclosed⟩

/-- Two calls spell one key in one arena exactly for equal arguments if and only if they are
told apart. -/
theorem told_iff (hS : Consistent S) (hperm : ∀ l, (sort l).Perm l)
    (hsorted : ∀ l, InOrder (sort l)) {A B : Call} (hA : Within S A.ids) (hB : Within S B.ids) :
    (A.bucket = B.bucket ∧ A.key sort = B.key sort ↔ A.structure = B.structure) ↔
      Told sort A B := by
  by_cases hletter : A.letter = B.letter
  · rcases A with ⟨fields, index, fresh, closed⟩ | elems | ix | ⟨head, tail, modes, names⟩ | ⟨t, name⟩ <;>
      rcases B with ⟨fields', index', fresh', closed'⟩ | elems' | ix' |
        ⟨head', tail', modes', names'⟩ | ⟨t', name'⟩ <;>
      try (simp [Call.letter] at hletter; done)
    · simpa [Call.bucket] using shape_told_iff hS hperm hsorted hA hB
    · refine iff_of_true ⟨fun h => ?_, fun h => ?_⟩ trivial
      · have helems : elems = elems' := tupleKey_injective hS hA hB h.2
        rw [helems]
      · cases h
        exact ⟨rfl, rfl⟩
    · refine iff_of_true ⟨fun h => ?_, fun h => ?_⟩ trivial
      · rw [indexerKey_injective hS hA hB h.2]
      · cases h
        exact ⟨rfl, rfl⟩
    · refine iff_of_true ⟨fun h => ?_, fun h => ?_⟩ trivial
      · obtain ⟨hentries, htail⟩ := packKey_injective hS hA hB h.2
        simp only [Call.structure, hentries, htail]
      · simp only [Call.structure, Structure.pack.injEq] at h
        exact ⟨rfl, by simp only [Call.key, h.1, packKey_eq h.2]⟩
    · refine iff_of_true ⟨fun h => ?_, fun h => ?_⟩ trivial
      · obtain ⟨rfl, rfl⟩ := projectionKey_injective hS (hA _ (by simp [Call.ids]))
          (hB _ (by simp [Call.ids])) h.2
        rfl
      · cases h
        exact ⟨rfl, rfl⟩
  · have hkeys : A.key sort ≠ B.key sort := by
      intro h
      have hhead := congrArg List.head? h
      rw [A.head_key, B.head_key] at hhead
      exact hletter (Option.some.inj hhead)
    have hstructures : A.structure ≠ B.structure := fun h => hletter (Call.letter_of_structure h)
    simp [hkeys, hstructures, told_of_letter hletter]

/-- A shape whose field names are distinct and do not hold the text that ends a name. -/
def Call.plain : Call → Prop
  | .shape fields _ _ _ =>
    (fields.map Field.name).Nodup ∧ ∀ f ∈ fields, ¬ ascii ":r=" <:+: f.name
  | _ => True

theorem Spells.eq_of_plain {s out : List Slots} (h : Spells s out)
    (hs : ∀ f ∈ s, ¬ ascii ":r=" <:+: f.name) : out = s := by
  induction h with
  | nil => rfl
  | field f _ ih => rw [ih fun g hg => hs g (by simp [hg])]
  | named f g name hname _ _ =>
    refine absurd ?_ (hs g (by simp))
    rw [hname]
    exact ⟨f.name, slot f.read ++ ascii ":w=" ++ slot f.write ++ 44 :: name, by simp [Slots.text]⟩

theorem Field.name_slots (f : Field) : f.slots.name = f.name := by
  unfold Field.slots
  split
  · rfl
  · split <;> rfl

theorem told_of_plain (hperm : ∀ l, (sort l).Perm l) (hsorted : ∀ l, InOrder (sort l))
    {A B : Call} (hA : A.plain) (hB : B.plain) : Told sort A B := by
  by_cases hletter : A.letter = B.letter
  · rcases A with ⟨fields, index, fresh, closed⟩ | elems | ix | ⟨head, tail, modes, names⟩ | ⟨t, name⟩ <;>
      rcases B with ⟨fields', index', fresh', closed'⟩ | elems' | ix' |
        ⟨head', tail', modes', names'⟩ | ⟨t', name'⟩ <;>
      try trivial
    obtain ⟨hnodup, hplain⟩ := hA
    have hnames : ∀ fields : List Field,
        (fields.map Field.slots).map Slots.name = fields.map Field.name := by
      intro fields
      simp [Function.comp_def, Field.name_slots]
    have hfree : ∀ fields : List Field, (∀ f ∈ fields, ¬ ascii ":r=" <:+: f.name) →
        ∀ f ∈ sort (fields.map Field.slots), ¬ ascii ":r=" <:+: f.name := by
      intro fields hfields f hf
      obtain ⟨g, hg, rfl⟩ := List.mem_map.mp ((hperm _).mem_iff.mp hf)
      rw [Field.name_slots]
      exact hfields g hg
    intro _ _ _
    constructor
    · rintro ⟨out, hout, hout'⟩
      rw [← hout.eq_of_plain (hfree fields hplain), ← hout'.eq_of_plain (hfree fields' hB.2)]
    · intro hp name
      have hdistinct : ((sort (fields.map Field.slots)).map Slots.name).Nodup := by
        rw [((hperm _).map Slots.name).nodup_iff, hnames]
        exact hnodup
      have hsame := hp.eq_of_pairwise
        (fun f g hf hg (h : f.name ≤ g.name) (h' : g.name ≤ f.name) =>
          List.inj_on_of_nodup_map hdistinct hf (hp.mem_iff.mpr hg) (List.le_antisymm h h'))
        (hsorted _) (hsorted _)
      rw [hsame]
  · exact told_of_letter hletter

end Keys

section Process

variable {p q : Process}

/-- What every state of a process keeps: declarations have counters of their own, and an object
stands under one key of one arena, with a serial of its own. -/
structure Sound (p : Process) : Prop where
  consistent : Consistent {a | a ∈ p.issued}
  counter_le : ∀ space counter name, Id.nominal space counter name ∈ p.issued →
    counter ≤ p.nominal
  serial_le : ∀ bucket key a, p.arena bucket key = some a →
    ∃ marks space number, a = .serial marks bucket space number ∧ number ≤ p.serial
  arena_injective : ∀ bucket bucket' key key' a, p.arena bucket key = some a →
    p.arena bucket' key' = some a → bucket = bucket' ∧ key = key'

/-- What a later state still has of an earlier one. -/
structure Kept (p q : Process) : Prop where
  issued : ∀ a ∈ p.issued, a ∈ q.issued
  arena : ∀ bucket key a, p.arena bucket key = some a → q.arena bucket key = some a

theorem Kept.refl (p : Process) : Kept p p := ⟨fun _ h => h, fun _ _ _ h => h⟩

theorem Kept.trans {r : Process} (h : Kept p q) (h' : Kept q r) : Kept p r :=
  ⟨fun a ha => h'.issued a (h.issued a ha), fun b k a ha => h'.arena b k a (h.arena b k a ha)⟩

theorem sound_start : Sound .start where
  consistent := by simp [Consistent, Process.start]
  counter_le := by simp [Process.start]
  serial_le := by simp [Process.start]
  arena_injective := by simp [Process.start]

theorem intern_arena (p : Process) (bucket : Bucket) (key : Bytes) (marks : List Mark) :
    (p.intern bucket key marks).2.arena bucket key = some (p.intern bucket key marks).1 := by
  unfold Process.intern
  cases h : p.arena bucket key with
  | some found => exact h
  | none => simp

theorem intern_kept (p : Process) (bucket : Bucket) (key : Bytes) (marks : List Mark) :
    Kept p (p.intern bucket key marks).2 := by
  unfold Process.intern
  cases h : p.arena bucket key with
  | some found => exact .refl p
  | none =>
    refine ⟨fun a ha => List.mem_cons_of_mem _ ha, fun b k a ha => ?_⟩
    by_cases hb : b = bucket
    · subst hb
      have hk : k ≠ key := by
        rintro rfl
        simp [h] at ha
      simpa [Function.update_of_ne hk] using ha
    · simpa [Function.update_of_ne hb] using ha

theorem arena_update {bucket b : Bucket} {key k : Bytes} {made a : Id}
    (h : Function.update p.arena bucket (Function.update (p.arena bucket) key (some made)) b k =
      some a) : (b = bucket ∧ k = key ∧ made = a) ∨ p.arena b k = some a := by
  by_cases hb : b = bucket
  · subst hb
    by_cases hk : k = key
    · subst hk
      exact .inl ⟨rfl, rfl, by simpa using h⟩
    · exact .inr (by simpa [Function.update_of_ne hk] using h)
  · exact .inr (by simpa [Function.update_of_ne hb] using h)

theorem intern_sound (hp : Sound p) (bucket : Bucket) (key : Bytes) (marks : List Mark) :
    Sound (p.intern bucket key marks).2 := by
  unfold Process.intern
  cases h : p.arena bucket key with
  | some found => exact hp
  | none =>
    have hold : ∀ space counter name,
        Id.nominal space counter name ∈ Id.serial marks bucket p.space (p.serial + 1) :: p.issued →
        Id.nominal space counter name ∈ p.issued := by simp
    -- the new serial is above all that stand in the arenas
    have hnew : ∀ b k, p.arena b k ≠ some (.serial marks bucket p.space (p.serial + 1)) := by
      intro b k hk
      obtain ⟨ms, s, n, heq, hn⟩ := hp.serial_le b k _ hk
      cases heq
      omega
    exact
      { consistent := fun s c n n' hn hn' =>
          hp.consistent s c n n' (hold s c n hn) (hold s c n' hn')
        counter_le := fun s c n hn => hp.counter_le s c n (hold s c n hn)
        serial_le := by
          intro b k a ha
          rcases arena_update ha with ⟨rfl, rfl, rfl⟩ | ha
          · exact ⟨marks, p.space, p.serial + 1, rfl, le_rfl⟩
          · obtain ⟨ms, s, n, rfl, hn⟩ := hp.serial_le b k a ha
            exact ⟨ms, s, n, rfl, Nat.le_succ_of_le hn⟩
        arena_injective := by
          intro b b' k k' a ha ha'
          rcases arena_update ha with ⟨rfl, rfl, rfl⟩ | hbefore <;>
            rcases arena_update ha' with ⟨rfl, rfl, heq⟩ | hbefore'
          · exact ⟨rfl, rfl⟩
          · exact absurd hbefore' (hnew _ _)
          · rw [← heq] at hbefore
            exact absurd hbefore (hnew _ _)
          · exact hp.arena_injective b b' k k' a hbefore hbefore' }

theorem nominal_sound (hp : Sound p) (name : NominalName) : Sound (p.nominalType name).2 where
  consistent := by
    intro s c n n' hn hn'
    -- a counter that was issued before is below the new one
    rcases List.mem_cons.mp hn with hn | hn <;> rcases List.mem_cons.mp hn' with hn' | hn'
    · cases hn
      cases hn'
      rfl
    · cases hn
      have hle := hp.counter_le _ _ _ hn'
      omega
    · cases hn'
      have hle := hp.counter_le _ _ _ hn
      omega
    · exact hp.consistent s c n n' hn hn'
  counter_le := by
    intro s c n hn
    rcases List.mem_cons.mp hn with hn | hn
    · cases hn
      exact le_rfl
    · exact Nat.le_succ_of_le (hp.counter_le s c n hn)
  serial_le := hp.serial_le
  arena_injective := hp.arena_injective

theorem resume_sound (hp : Sound p) (serial nominal : ℕ) :
    Sound (p.resumeIdentity serial nominal) where
  consistent := hp.consistent
  counter_le := fun s c n hn => (hp.counter_le s c n hn).trans (le_max_left _ _)
  serial_le := by
    intro b k a ha
    obtain ⟨ms, s, n, rfl, hn⟩ := hp.serial_le b k a ha
    exact ⟨ms, s, n, rfl, hn.trans (le_max_left _ _)⟩
  arena_injective := hp.arena_injective

theorem Step.sound_kept (hp : Sound p) (h : Step p q) : Sound q ∧ Kept p q := by
  cases h with
  | intern bucket key marks => exact ⟨intern_sound hp bucket key marks, intern_kept p bucket key marks⟩
  | nominal name =>
    exact ⟨nominal_sound hp name, fun a ha => List.mem_cons_of_mem _ ha, fun _ _ _ h => h⟩
  | resumeIdentity serial nominal =>
    exact ⟨resume_sound hp serial nominal, fun _ h => h, fun _ _ _ h => h⟩
  | setIdentityNamespace h =>
    -- only the namespace of later ids changes
    have hq : q.issued = p.issued ∧ q.arena = p.arena ∧ q.serial = p.serial ∧
        q.nominal = p.nominal := by
      unfold Process.setIdentityNamespace at h
      split at h
      · cases h
        exact ⟨rfl, rfl, rfl, rfl⟩
      · split at h
        · cases h
          exact ⟨rfl, rfl, rfl, rfl⟩
        · cases h
    obtain ⟨hissued, harena, hserial, hnominal⟩ := hq
    refine ⟨⟨?_, ?_, ?_, ?_⟩, ?_, ?_⟩
    · rw [hissued]
      exact hp.consistent
    · rw [hissued, hnominal]
      exact hp.counter_le
    · rw [harena, hserial]
      exact hp.serial_le
    · rw [harena]
      exact hp.arena_injective
    · rw [hissued]
      exact fun _ h => h
    · rw [harena]
      exact fun _ _ _ h => h

theorem Run.sound_kept (hp : Sound p) (h : Run p q) : Sound q ∧ Kept p q := by
  induction h with
  | refl => exact ⟨hp, .refl p⟩
  | tail _ hstep ih =>
    obtain ⟨hsound, hkept⟩ := hstep.sound_kept ih.1
    exact ⟨hsound, ih.2.trans hkept⟩

/-- Two calls in one process give one object exactly for equal arguments if and only if they are
told apart. -/
theorem one_object_iff {sort : List Slots → List Slots} (hperm : ∀ l, (sort l).Perm l)
    (hsorted : ∀ l, (sort l).Pairwise fun f g => f.name ≤ g.name) {p q : Process}
    (hp : Run .start p) {A B : Call} (hA : ∀ a ∈ A.ids, a ∈ p.issued)
    (hq : Run (p.call sort A).2 q) (hB : ∀ b ∈ B.ids, b ∈ q.issued) :
    ((p.call sort A).1 = (q.call sort B).1 ↔ A.structure = B.structure) ↔ Told sort A B := by
  have hsound := (hp.sound_kept sound_start).1
  have hcalled : Sound (p.call sort A).2 := intern_sound hsound _ _ _
  have hkeptA : Kept p (p.call sort A).2 := intern_kept p _ _ _
  obtain ⟨hsoundq, hkeptq⟩ := hq.sound_kept hcalled
  have hlast : Sound (q.call sort B).2 := intern_sound hsoundq _ _ _
  have hkeptB : Kept q (q.call sort B).2 := intern_kept q _ _ _
  have harenaA : (q.call sort B).2.arena A.bucket (A.key sort) = some (p.call sort A).1 :=
    hkeptB.arena _ _ _ (hkeptq.arena _ _ _ (intern_arena p A.bucket (A.key sort) _))
  have harenaB : (q.call sort B).2.arena B.bucket (B.key sort) = some (q.call sort B).1 :=
    intern_arena q B.bucket (B.key sort) _
  have hobject : (p.call sort A).1 = (q.call sort B).1 ↔
      A.bucket = B.bucket ∧ A.key sort = B.key sort := by
    constructor
    · intro h
      exact hlast.arena_injective _ _ _ _ _ harenaA (h ▸ harenaB)
    · rintro ⟨hbucket, hkey⟩
      rw [hbucket, hkey] at harenaA
      exact Option.some.inj (harenaA.symm.trans harenaB)
  rw [hobject]
  exact told_iff hsoundq.consistent hperm hsorted
    (fun a ha => hkeptq.issued a (hkeptA.issued a (hA a ha))) hB

section Examples

instance : DecidableRel fun f g : Slots => f.name ≤ g.name :=
  fun f g => inferInstanceAs (Decidable (f.name ≤ g.name))

instance : Std.Total fun f g : Slots => f.name ≤ g.name := ⟨fun f g => List.le_total f.name g.name⟩

instance : IsTrans Slots fun f g => f.name ≤ g.name := ⟨fun _ _ _ => List.le_trans⟩

def sortByName : List Slots → List Slots := List.insertionSort fun f g => f.name ≤ g.name

/-- A process that has made one primitive. -/
def withString : Id × Process := Process.start.intern .types (ascii "string") []

def field (name : String) : Field := ⟨ascii name, some withString.1, none, none, none⟩

def pair : Call := .shape [field "a", field "b"] none false false

def pairBack : Call := .shape [field "b", field "a"] none false false

def imitation : Call := .shape [field "a:r=t1:w=t1,b"] none false false

theorem run_withString : Run .start withString.2 :=
  .single (.intern .start .types (ascii "string") [])

end Examples

end Process

theorem one_object_two_orders :
    ((withString.2.call sortByName pair).1 =
        ((withString.2.call sortByName pair).2.call sortByName pairBack).1 ↔
      pair.structure = pairBack.structure) ↔ Told sortByName pair pairBack :=
  one_object_iff (List.perm_insertionSort _) (List.pairwise_insertionSort _) run_withString
    (by decide) .refl (by decide +kernel)

/-- A field named as two fields are spelled makes a shape of one field the shape of two. -/
theorem imitated_fields : ¬ ∀ (p q : Process) (A B : Call), Run .start p →
    (∀ a ∈ A.ids, a ∈ p.issued) → Run (p.call sortByName A).2 q → (∀ b ∈ B.ids, b ∈ q.issued) →
    ((p.call sortByName A).1 = (q.call sortByName B).1 ↔ A.structure = B.structure) := by
  intro h
  have hsame := (h withString.2 _ pair imitation run_withString (by decide) .refl
    (by decide +kernel)).mp (by decide +kernel)
  simp only [pair, imitation, Call.structure, Structure.shape.injEq, Multiset.coe_eq_coe] at hsame
  exact absurd hsame.1.length_eq (by decide)

end Nupp.interning
