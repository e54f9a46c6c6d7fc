import Nupp.Events.Bus
import Nupp.Events.Count

/-! The lists of a bus hold what its registry holds, and a delivery in flight has due what
its list holds from its index on. -/

namespace Nupp.events

open Table

variable {A C : Type}

/-- A registration as a list holds it. -/
def Registration.slot (r : Registration A C) : Slot C := ⟨r.name, some r.callback, r.once, r.serial⟩

theorem Registration.slot_injective {r r' : Registration A C} (h : r.slot = r'.slot)
    (haddress : r.address = r'.address) (hevent : r.event = r'.event) : r = r' := by
  obtain ⟨serial, address, event, name, callback, once⟩ := r
  obtain ⟨serial', address', event', name', callback', once'⟩ := r'
  simp only [Registration.slot, Slot.mk.injEq, Option.some.injEq] at h haddress hevent
  simp [h, haddress, hevent]

theorem Registration.slot_matches [DecidableEq C] (r : Registration A C) (key : Key C) :
    r.slot.matches key = r.matches key := by
  cases key with
  | name name => rfl
  | callback callback =>
    simp only [Slot.matches, Registration.matches, Registration.slot]
    by_cases h : r.callback = callback <;> simp [h]

/-- What a delivery has still to call. -/
structure Due (s : State A C) (flight : Flight A) (due : List (Registration A C)) : Prop where
  slots : due.map Registration.slot =
    pending (s.lists flight.list).slots flight.n flight.index
  place : ∀ r ∈ due, r.address = flight.address ∧ r.event = flight.event

variable [DecidableEq A]

structure Matches (w : World A C) (b : Bus A C) : Prop where
  emissions : b.emissions = w.emissions
  serial : b.nextSerial = w.observers.nextSerial
  log : b.log = w.log
  registry : ∀ a event,
    Ordered w.observers a event ((b.registered a event).map Registration.slot)
  due : ∀ emission flight, w.flights.lookup emission = some flight →
    ∃ due, b.due emission = some due ∧ Due w.observers flight due
  ended : ∀ emission, w.flights.lookup emission = none → (b.due emission).getD [] = []

theorem matches_start : Matches ({} : World A C) {} where
  emissions := rfl
  serial := rfl
  log := rfl
  registry := by
    intro a event
    exact ⟨.refl _, fun _ => rfl⟩
  due := by simp
  ended := by simp

variable {s s' : State A C} {w : World A C} {b : Bus A C}

theorem registered_place {a : A} {event : ℕ} {r : Registration A C}
    (h : r ∈ b.registered a event) : r.address = a ∧ r.event = event := by
  simpa using (List.mem_filter.mp h).2

theorem mem_registered {a : A} {event : ℕ} {r : Registration A C} :
    r ∈ b.registered a event ↔ r ∈ b.registry ∧ r.address = a ∧ r.event = event := by
  simp [Bus.registered]

/-- Every order in which a list holds the registrations comes from an order of them. -/
theorem exists_perm_of_map {α β : Type} (f : α → β) {xs : List β} {ys : List α}
    (h : xs.Perm (ys.map f)) : ∃ zs : List α, zs.Perm ys ∧ zs.map f = xs := by
  induction xs generalizing ys with
  | nil =>
    have hnil : ys = [] := List.map_eq_nil_iff.mp h.symm.eq_nil
    exact ⟨[], by rw [hnil], rfl⟩
  | cons x xs ih =>
    obtain ⟨y, hy, rfl⟩ := List.mem_map.mp (h.mem_iff.mp List.mem_cons_self)
    obtain ⟨before, after, rfl⟩ := List.append_of_mem hy
    have hmiddle : (before ++ y :: after).Perm (y :: (before ++ after)) := List.perm_middle
    have hrest := (List.perm_cons (f y)).mp (h.trans (hmiddle.map f))
    obtain ⟨zs, hperm, hmap⟩ := ih hrest
    exact ⟨y :: zs, (hperm.cons y).trans hmiddle.symm, by rw [List.map_cons, hmap]⟩

omit [DecidableEq A] in
/-- A live slot of one list is in no other list. -/
theorem list_unique (h : Sound s) {id id' : ℕ} (hid : id ∈ s.held) (hid' : id' ∈ s.held)
    {slot slot' : Slot C} (hslot : slot ∈ lives (s.lists id).slots)
    (hslot' : slot' ∈ lives (s.lists id').slots) (hserial : slot.serial = slot'.serial) :
    id = id' := by
  by_contra hne
  have hsymm : Std.Symm (Function.onFun List.Disjoint
      fun id => serials (s.lists id).slots) := ⟨fun _ _ hdisjoint => hdisjoint.symm⟩
  have hdisjoint := (List.nodup_flatMap.mp h.fresh).2.forall hid hid' hne
  have hmem : slot.serial ∈ serials (s.lists id).slots := List.mem_map_of_mem hslot
  have hmem' : slot.serial ∈ serials (s.lists id').slots := by
    rw [hserial]
    exact List.mem_map_of_mem hslot'
  exact hdisjoint hmem hmem'

theorem mem_lives_of_pending {slots : List (Slot C)} (n index : ℕ) {slot : Slot C}
    (h : slot ∈ pending slots n index) : slot ∈ lives slots := by
  have hsub : ((slots.take n).drop index).Sublist slots :=
    (List.drop_sublist _ _).trans (List.take_sublist _ _)
  exact (hsub.filter _).subset h

theorem Ordered.filter {a : A} {event : ℕ} {slots : List (Slot C)} (h : Ordered s a event slots)
    (keep : Slot C → Bool) (hregs : s'.regs a event = (s.regs a event).filter keep)
    (hshuffled : (s'.listOf a event).shuffled = (s.listOf a event).shuffled) :
    Ordered s' a event (slots.filter keep) := by
  rw [Ordered, hregs, hshuffled]
  exact ⟨h.1.filter keep, fun hfalse => by rw [h.2 hfalse]⟩

theorem Ordered.congr {a : A} {event : ℕ} {slots : List (Slot C)} (h : Ordered s a event slots)
    (hlistOf : s'.listOf a event = s.listOf a event) : Ordered s' a event slots := by
  rw [Ordered, State.regs, hlistOf]
  exact h

omit [DecidableEq A] in
theorem map_slot_filter (keep : Slot C → Bool) (rs : List (Registration A C)) :
    (rs.filter fun r => keep r.slot).map Registration.slot =
      (rs.map Registration.slot).filter keep := by
  rw [List.filter_map]
  rfl

theorem registered_forget (gone : Registration A C → Bool) (a : A) (event : ℕ) :
    (b.forget gone).registered a event = (b.registered a event).filter fun r => !gone r := by
  rw [Bus.registered, Bus.registered, Bus.forget]
  exact List.filter_comm ..

omit [DecidableEq A] in
theorem forget_none {gone : Registration A C → Bool} (h : ∀ r, gone r = false) :
    b.forget gone = b := by
  have hkeep (rs : List (Registration A C)) : rs.filter (fun r => !gone r) = rs :=
    List.filter_eq_self.mpr fun r _ => by simp [h r]
  simp only [Bus.forget, hkeep]
  have hdue : (fun emission => (b.due emission).map fun due => due) = b.due :=
    funext fun emission => Option.map_id'
  rw [hdue]

omit [DecidableEq A] in
theorem forget_over {gone : Registration A C → Bool} {emission : ℕ}
    (h : (b.due emission).getD [] = []) : ((b.forget gone).due emission).getD [] = [] := by
  have hdue : (b.forget gone).due emission =
      (b.due emission).map fun due => due.filter fun r => !gone r := rfl
  rw [hdue]
  cases hsome : b.due emission with
  | none => rfl
  | some due =>
    rw [hsome, Option.getD_some] at h
    rw [h]
    rfl

section Register

theorem match_register (hinv : Inv w) (h : Matches w b) (a : A) (event : ℕ) (callback : C)
    (name : Option String) (once : Bool) :
    Matches { w with observers := (register w.observers a event callback name once).2 }
      (b.register a event callback name once) := by
  have hspec := register_spec hinv.sound a event callback name once
  have hnames (slot : Slot C) : slot ∈ w.observers.regs a event ↔
      ∃ r ∈ b.registered a event, r.slot = slot := by
    rw [(h.registry a event).1.mem_iff, List.mem_map]
  revert hspec
  rcases register w.observers a event callback name once with ⟨result, observers⟩
  cases result with
  | error _ =>
    rintro ⟨hsame, other, hother, hsome, hname⟩
    obtain rfl : observers = w.observers := hsame
    obtain ⟨r, hr, rfl⟩ := (hnames other).mp hother
    have htaken : name.isSome ∧ ∃ r ∈ b.registered a event, r.name = name :=
      ⟨hname ▸ hsome, r, hr, hname⟩
    rw [Bus.register, if_pos htaken]
    exact h
  | ok _ =>
    intro hspec
    obtain ⟨id, hid, hat, hlists, hslots, hshuffled⟩ := hspec.list
    have hfree : ¬(name.isSome ∧ ∃ r ∈ b.registered a event, r.name = name) := by
      rintro ⟨hsome, r, hr, hname⟩
      exact hspec.name r.slot ((hnames r.slot).mpr ⟨r, hr, rfl⟩) hsome hname
    rw [Bus.register, if_neg hfree]
    have hother {id' : ℕ} (hne : id' ≠ id) : observers.lists id' = w.observers.lists id' := by
      rw [hlists, Function.update_of_ne hne]
    refine ⟨h.emissions, ?_, h.log, ?_, ?_, h.ended⟩
    · rw [hspec.serial.2, h.serial]
    · intro a' event'
      by_cases hsame : a' = a ∧ event' = event
      · obtain ⟨rfl, rfl⟩ := hsame
        have hregs : observers.regs a' event' = w.observers.regs a' event' ++
            [⟨name, some callback, once, w.observers.nextSerial⟩] := by
          rw [State.regs, hslots, lives_append]
          rfl
        have hnew : Bus.registered { b with
              registry := b.registry ++ [⟨b.nextSerial, a', event', name, callback, once⟩]
              nextSerial := b.nextSerial + 1 } a' event' =
            b.registered a' event' ++ [⟨b.nextSerial, a', event', name, callback, once⟩] := by
          simp [Bus.registered]
        rw [hnew, List.map_append, Ordered, hregs, hshuffled]
        have hslot : Registration.slot (⟨b.nextSerial, a', event', name, callback, once⟩ :
            Registration A C) = ⟨name, some callback, once, w.observers.nextSerial⟩ := by
          rw [← h.serial]
          rfl
        rw [List.map_singleton, hslot]
        exact ⟨(h.registry a' event').1.append_right _,
          fun hfalse => by rw [(h.registry a' event').2 hfalse]⟩
      · have hnew : Bus.registered { b with
              registry := b.registry ++ [⟨b.nextSerial, a, event, name, callback, once⟩]
              nextSerial := b.nextSerial + 1 } a' event' = b.registered a' event' := by
          have hnot : ¬(a = a' ∧ event = event') := fun hboth => hsame ⟨hboth.1.symm, hboth.2.symm⟩
          simp [Bus.registered, hnot]
        rw [hnew]
        apply (h.registry a' event').congr
        have hat' := hat a' event'
        rw [if_neg hsame] at hat'
        cases hold : w.observers.listAt a' event' with
        | none => rw [listOf_of_none (hat'.trans hold), listOf_of_none hold]
        | some id' =>
          rw [listOf_of_some (hat'.trans hold), listOf_of_some hold]
          apply hother
          rintro rfl
          rcases hid with hat | hnot
          · exact hsame (hinv.sound.owned.listAt_unique hat hold)
          · exact hnot (mem_held_of_listAt hold)
    · intro emission flight hflight
      obtain ⟨due, hdue, hslots', hplace⟩ := h.due emission flight hflight
      have hflying := hinv.flying emission flight hflight
      refine ⟨due, hdue, ?_, hplace⟩
      rw [hslots']
      by_cases hsame : flight.list = id
      · rcases hid with hat | hnot
        · have hlength := hflying.length
          rw [hsame] at hlength ⊢
          rw [hlists, Function.update_self, hslots, listOf_of_some hat, pending, pending,
            List.take_append_of_le_length hlength]
        · exact absurd (hsame ▸ hflying.held) hnot
      · exact congrArg (fun list : ObserverList C => pending list.slots flight.n flight.index)
          (hother hsame).symm

end Register

end Nupp.events
