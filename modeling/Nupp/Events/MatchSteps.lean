import Nupp.Events.Match

/-! Each action of a bus is one action of the registry. -/

namespace Nupp.events

open Table

variable {A C : Type} [DecidableEq A] {s s' : State A C} {w : World A C} {b : Bus A C}

omit [DecidableEq A] in
theorem Due.of_pending {flight : Flight A} {due : List (Registration A C)} (h : Due s flight due)
    (hpending : pending (s'.lists flight.list).slots flight.n flight.index =
      pending (s.lists flight.list).slots flight.n flight.index) : Due s' flight due :=
  ⟨h.slots.trans hpending.symm, h.place⟩

/-- What is due from the list attached at a place is registered there. -/
theorem Due.registered {flight : Flight A} {due : List (Registration A C)} {a : A} {event : ℕ}
    (h : Due s flight due) (hflying : Flying s flight)
    (hregistry : Ordered s a event ((b.registered a event).map Registration.slot))
    (hat : s.listAt a event = some flight.list) {r : Registration A C} (hr : r ∈ due) :
    r ∈ b.registered a event := by
  have hslot : r.slot ∈ s.regs a event := by
    rw [State.regs, listOf_of_some hat]
    apply mem_lives_of_pending flight.n flight.index
    rw [← h.slots]
    exact List.mem_map_of_mem hr
  obtain ⟨r', hr', hsame⟩ := List.mem_map.mp (hregistry.1.mem_iff.mp hslot)
  obtain ⟨haddress, hevent⟩ := hflying.at_ a event hat
  obtain ⟨haddress', hevent'⟩ := registered_place hr'
  obtain ⟨hplace, hplace'⟩ := h.place r hr
  have heq : r' = r := Registration.slot_injective hsame
    (by rw [haddress', hplace, haddress]) (by rw [hevent', hplace', hevent])
  exact heq ▸ hr'

/-- What is due from a list elsewhere shares no serial with what is registered at a place. -/
theorem Due.apart {flight : Flight A} {due : List (Registration A C)} {a : A} {event : ℕ}
    (hsound : Sound s) (h : Due s flight due) (hflying : Flying s flight)
    (hregistry : Ordered s a event ((b.registered a event).map Registration.slot))
    (hat : s.listAt a event ≠ some flight.list) {r r' : Registration A C} (hr : r ∈ due)
    (hr' : r' ∈ b.registered a event) : r.serial ≠ r'.serial := by
  intro hserial
  have hslot' : r'.slot ∈ s.regs a event :=
    hregistry.1.mem_iff.mpr (List.mem_map_of_mem hr')
  have hslot : r.slot ∈ lives (s.lists flight.list).slots := by
    apply mem_lives_of_pending flight.n flight.index
    rw [← h.slots]
    exact List.mem_map_of_mem hr
  cases hid : s.listAt a event with
  | none =>
    rw [State.regs, listOf_of_none hid] at hslot'
    simp [lives] at hslot'
  | some id =>
    rw [State.regs, listOf_of_some hid] at hslot'
    have hsame := list_unique hsound hflying.held (mem_held_of_listAt hid) hslot hslot' hserial
    exact hat (hid.trans (congrArg some hsame.symm))

theorem Matches.keeps (h : Matches w b) {observers : State A C} (hkeeps : Keeps w.observers observers)
    (hpending : ∀ emission flight, w.flights.lookup emission = some flight →
      observers.lists = w.observers.lists) : Matches { w with observers := observers } b where
  emissions := h.emissions
  serial := h.serial.trans hkeeps.serial.symm
  log := h.log
  registry := fun a event => hkeeps.ordered (h.registry a event)
  due := by
    intro emission flight hflight
    obtain ⟨due, hdue, hslots⟩ := h.due emission flight hflight
    exact ⟨due, hdue, hslots.of_pending (by rw [hpending emission flight hflight])⟩
  ended := h.ended

section Removal

omit [DecidableEq A] in
theorem pending_strike (gone : Slot C → Bool) (slots : List (Slot C)) (n index : ℕ) :
    pending (slots.map (strike gone)) n index =
      (pending slots n index).filter fun slot => !gone slot := by
  rw [pending, ← List.map_take, ← List.map_drop, lives_strike, pending]

/-- Some slots of one list are struck. -/
structure Removed (s : State A C) (id : ℕ) (gone : Slot C → Bool) (s' : State A C) : Prop where
  serial : s'.nextSerial = s.nextSerial
  byAddress : s'.byAddress = s.byAddress
  lists : s'.lists = Function.update s.lists id (s'.lists id)
  slots : (s'.lists id).slots = (s.lists id).slots.map (strike gone)
  shuffled : (s'.lists id).shuffled = (s.lists id).shuffled

/-- Striking slots of a list is forgetting its registrations, in the registry if the list is
attached and for every delivery from the list. -/
theorem match_removed (h : Matches w b) {id : ℕ} {gone : Slot C → Bool}
    {observers : State A C} (hremoved : Removed w.observers id gone observers)
    (forgotten : Registration A C → Bool)
    (hregistry : ∀ a event, ∀ r ∈ b.registered a event,
      forgotten r = (decide (w.observers.listAt a event = some id) && gone r.slot))
    (hdue : ∀ emission flight due, w.flights.lookup emission = some flight →
      b.due emission = some due → Due w.observers flight due → ∀ r ∈ due,
        forgotten r = (decide (flight.list = id) && gone r.slot)) :
    Matches { w with observers := observers } (b.forget forgotten) := by
  have hat (a : A) (event : ℕ) : observers.listAt a event = w.observers.listAt a event := by
    rw [State.listAt, hremoved.byAddress, State.listAt]
  have hother {id' : ℕ} (hne : id' ≠ id) : observers.lists id' = w.observers.lists id' := by
    rw [hremoved.lists, Function.update_of_ne hne]
  have hforgotten {rs : List (Registration A C)}
      (h : ∀ r ∈ rs, forgotten r = gone r.slot) :
      (rs.filter fun r => !forgotten r).map Registration.slot =
        (rs.map Registration.slot).filter fun slot => !gone slot := by
    rw [← map_slot_filter fun slot => !gone slot]
    exact congrArg _ (List.filter_congr fun r hr => by rw [h r hr])
  have hkept {rs : List (Registration A C)} (h : ∀ r ∈ rs, forgotten r = false) :
      (rs.filter fun r => !forgotten r) = rs :=
    List.filter_eq_self.mpr fun r hr => by simp [h r hr]
  refine ⟨h.emissions, h.serial.trans hremoved.serial.symm, h.log, ?_, ?_,
    fun emission hnone => forget_over (h.ended emission hnone)⟩
  · intro a event
    rw [registered_forget]
    by_cases hattached : w.observers.listAt a event = some id
    · rw [hforgotten fun r hr => by simp [hregistry a event r hr, hattached]]
      apply (h.registry a event).filter
      · rw [State.regs, State.regs, listOf_of_some ((hat _ _).trans hattached),
          listOf_of_some hattached, hremoved.slots, lives_strike]
      · rw [listOf_of_some ((hat _ _).trans hattached), listOf_of_some hattached,
          hremoved.shuffled]
    · rw [hkept fun r hr => by simp [hregistry a event r hr, hattached]]
      apply (h.registry a event).congr
      cases hold : w.observers.listAt a event with
      | none => rw [listOf_of_none ((hat _ _).trans hold), listOf_of_none hold]
      | some id' =>
        rw [listOf_of_some ((hat _ _).trans hold), listOf_of_some hold]
        exact hother fun hsame => hattached (hold.trans (congrArg some hsame))
  · intro emission flight hflight
    obtain ⟨due, hsome, hold⟩ := h.due emission flight hflight
    have hgone := hdue emission flight due hflight hsome hold
    have hresult : (b.forget forgotten).due emission =
        some (due.filter fun r => !forgotten r) := by
      simp only [Bus.forget, hsome, Option.map_some]
    refine ⟨_, hresult, ?_⟩
    by_cases hsame : flight.list = id
    · refine ⟨?_, fun r hr => hold.place r (List.mem_filter.mp hr).1⟩
      rw [hforgotten fun r hr => by simp [hgone r hr, hsame], hold.slots]
      have hslots := hremoved.slots
      rw [← hsame] at hslots
      rw [hslots, pending_strike]
    · rw [hkept fun r hr => by simp [hgone r hr, hsame]]
      exact hold.of_pending (by rw [hother hsame])

end Removal

section Stop

variable [DecidableEq C]

theorem match_struck (hinv : Inv w) (h : Matches w b) {a : A} {event id : ℕ} {key : Key C}
    {observers : State A C} (hat : w.observers.listAt a event = some id)
    (hstruck : Struck w.observers a event key id observers) :
    Matches { w with observers := observers } (b.stop a event key) := by
  have hremoved : Removed w.observers id (Slot.matches key) observers :=
    ⟨hstruck.serial, hstruck.byAddress, hstruck.lists, hstruck.slots, hstruck.shuffled⟩
  refine match_removed h hremoved _ ?_ ?_
  · intro a' event' r hr
    rw [r.slot_matches]
    by_cases hattached : w.observers.listAt a' event' = some id
    · obtain ⟨rfl, rfl⟩ := hinv.sound.owned.listAt_unique hat hattached
      simp [hr, hattached]
    · have hnot : r ∉ b.registered a event := by
        intro hmem
        obtain ⟨rfl, rfl⟩ := registered_place hr
        obtain ⟨hsame, hsame'⟩ := registered_place hmem
        rw [hsame, hsame'] at hattached
        exact hattached hat
      simp [hnot, hattached]
  · intro emission flight due hflight _ hold r hr
    have hflying := hinv.flying emission flight hflight
    rw [r.slot_matches]
    by_cases hsame : flight.list = id
    · have hmem := hold.registered hflying (h.registry a event) (hsame ▸ hat) hr
      simp [hmem, hsame]
    · have hnot : r ∉ b.registered a event := by
        intro hmem
        refine hold.apart hinv.sound hflying (h.registry a event) ?_ hr hmem rfl
        rw [hat]
        exact fun heq => hsame (Option.some.inj heq).symm
      simp [hnot, hsame]

theorem match_stop (hinv : Inv w) (h : Matches w b) (hcounted : Counted w) (a : A) (event : ℕ)
    (key : Key C) :
    Matches { w with observers := (stop w.observers a event key).2 } (b.stop a event key) := by
  rcases stop_spec hinv.sound a event key with ⟨hsame, hnone⟩ | ⟨id, s₁, hat, hstruck, hstop⟩
  · have hmatches : ∀ slot ∈ w.observers.regs a event, slot.matches key = false := by
      rcases hnone with hzero | hmatches
      · intro slot hslot
        exact absurd hzero (hcounted.2 a event (List.ne_nil_of_mem hslot))
      · exact hmatches
    have hforget : b.stop a event key = b := by
      apply forget_none
      intro r
      by_cases hr : r ∈ b.registered a event
      · have hslot : r.slot ∈ w.observers.regs a event :=
          (h.registry a event).1.mem_iff.mpr (List.mem_map_of_mem hr)
        have hfalse := hmatches r.slot hslot
        rw [r.slot_matches] at hfalse
        simp [hfalse]
      · simp [hr]
    rw [hforget, hsame]
    exact h
  · have hat₁ : s₁.listAt a event = some id := by
      rw [State.listAt, hstruck.byAddress]
      exact hat
    obtain ⟨hkeeps, halike⟩ := touched_keeps a event id hstruck.sound (.inl hat₁)
    rw [hstop]
    refine (match_struck hinv h hat hstruck).keeps hkeeps ?_
    intro emission flight hflight
    have hpos := depth_pos hinv hflight
    exact (halike (hstruck.depth.symm ▸ hpos)).lists

end Stop

section Clear

/-- Registrations at some addresses leave the registry, and no emission under way. -/
theorem match_cleared (hinv : Inv w) (h : Matches w b) {addresses : List A}
    {observers : State A C} (hcleared : Cleared w.observers addresses observers) :
    Matches { w with observers := observers }
      { b with registry := b.registry.filter fun r => r.address ∉ addresses } where
  emissions := h.emissions
  serial := h.serial.trans hcleared.serial.symm
  log := h.log
  registry := by
    intro a event
    have hold := hcleared.ordered a event _ (h.registry a event)
    have hregistered : Bus.registered
        { b with registry := b.registry.filter fun r => r.address ∉ addresses } a event =
          if a ∈ addresses then [] else b.registered a event := by
      rw [Bus.registered, List.filter_filter]
      split
      · next hmem =>
        apply List.filter_eq_nil_iff.mpr
        intro r _ hboth
        simp only [Bool.and_eq_true, decide_eq_true_eq] at hboth
        exact hboth.2 (hboth.1.1 ▸ hmem)
      · next hmem =>
        apply List.filter_congr
        intro r _
        by_cases ha : r.address = a
        · simp [ha, hmem]
        · simp [ha]
    rw [hregistered]
    split at hold
    · next hmem =>
      rw [if_pos hmem]
      exact hold
    · next hmem =>
      rw [if_neg hmem]
      exact hold
  due := by
    intro emission flight hflight
    obtain ⟨due, hdue, hold⟩ := h.due emission flight hflight
    have hlists := (hcleared.held (depth_pos hinv hflight)).2.1
    exact ⟨due, hdue, hold.of_pending (by rw [hlists])⟩
  ended := h.ended

theorem match_clear (hinv : Inv w) (h : Matches w b) (a : A) :
    Matches { w with observers := clear w.observers a }
      { b with registry := b.registry.filter fun r => r.address ≠ a } := by
  have hmatch := match_cleared hinv h (clear_spec hinv.sound a)
  simpa using hmatch

theorem match_reset (hinv : Inv w) (h : Matches w b) :
    Matches { w with observers := reset w.observers } { b with registry := [] } := by
  have hmatch := match_cleared hinv h (reset_spec hinv.sound)
  have hnone : (b.registry.filter fun r => r.address ∉ w.observers.byAddress.keys) = [] := by
    apply List.filter_eq_nil_iff.mpr
    intro r hr
    simp only [decide_eq_true_eq, not_not]
    by_contra hmem
    have hat : w.observers.listAt r.address r.event = none := by
      have hlookup : w.observers.byAddress.lookup r.address = none :=
        AList.lookup_eq_none.mpr hmem
      simp [State.listAt, hlookup]
    have hslot : r.slot ∈ w.observers.regs r.address r.event :=
      (h.registry r.address r.event).1.mem_iff.mpr
        (List.mem_map_of_mem (mem_registered.mpr ⟨hr, rfl, rfl⟩))
    rw [State.regs, listOf_of_none hat] at hslot
    simp [lives] at hslot
  rw [hnone] at hmatch
  exact hmatch

end Clear

section Deliver

theorem not_begun (hinv : Inv w) {emission : ℕ} (hle : w.emissions ≤ emission) :
    w.flights.lookup emission = none := by
  cases hflight : w.flights.lookup emission with
  | none => rfl
  | some flight => exact absurd (hinv.started _ flight hflight) (Nat.not_lt.mpr hle)

omit [DecidableEq A] in
theorem setDue_self (emission : ℕ) (due : Option (List (Registration A C))) :
    (b.setDue emission due).due emission = due := Function.update_self ..

omit [DecidableEq A] in
theorem setDue_of_ne {emission other : ℕ} (due : Option (List (Registration A C)))
    (h : other ≠ emission) : (b.setDue emission due).due other = b.due other :=
  Function.update_of_ne h ..

theorem registered_nil (h : Matches w b) {a : A} {event : ℕ}
    (hregs : w.observers.regs a event = []) : b.registered a event = [] := by
  have hperm := (h.registry a event).1
  rw [hregs] at hperm
  exact List.map_eq_nil_iff.mp hperm.symm.eq_nil

theorem match_dropped (hinv : Inv w) (h : Matches w b) :
    Matches { w with emissions := w.emissions + 1 }
      { b.setDue b.emissions (some []) with emissions := b.emissions + 1 } where
  emissions := congrArg (· + 1) h.emissions
  serial := h.serial
  log := h.log
  registry := h.registry
  due := by
    intro emission flight hflight
    obtain ⟨due, hdue, hold⟩ := h.due emission flight hflight
    have hne : emission ≠ b.emissions := by
      rw [h.emissions]
      exact Nat.ne_of_lt (hinv.started emission flight hflight)
    exact ⟨due, (setDue_of_ne _ hne).trans hdue, hold⟩
  ended := by
    intro emission hnone
    by_cases hsame : emission = b.emissions
    · rw [hsame]
      exact congrArg (fun due : Option (List (Registration A C)) => due.getD []) (setDue_self _ _)
    · exact (congrArg (fun due : Option (List (Registration A C)) => due.getD [])
        (setDue_of_ne _ hsame)).trans (h.ended emission hnone)

theorem match_begin (hinv : Inv w) (h : Matches w b) (hcounted : Counted w) (a : A)
    (event : ℕ) :
    ∃ due : List (Registration A C), due.Perm (b.registered a event) ∧
      ((w.observers.listOf a event).shuffled = false → due = b.registered a event) ∧
      Matches (begin w a event)
        { b.setDue b.emissions (some due) with emissions := b.emissions + 1 } := by
  have hdrop (hregs : w.observers.regs a event = [])
      (hbegin : begin w a event = { w with emissions := w.emissions + 1 }) :
      ∃ due : List (Registration A C), due.Perm (b.registered a event) ∧
        ((w.observers.listOf a event).shuffled = false → due = b.registered a event) ∧
        Matches (begin w a event)
          { b.setDue b.emissions (some due) with emissions := b.emissions + 1 } := by
    rw [registered_nil h hregs, hbegin]
    exact ⟨[], .refl _, fun _ => rfl, match_dropped hinv h⟩
  by_cases hzero : w.observers.count = 0
  · refine hdrop ?_ (by simp only [begin, if_pos hzero])
    by_contra hregs
    exact hcounted.2 a event hregs hzero
  cases hat : w.observers.listAt a event with
  | none =>
    refine hdrop ?_ (by simp only [begin, if_neg hzero, hat])
    rw [State.regs, listOf_of_none hat]
    rfl
  | some id =>
    by_cases hlength : (w.observers.lists id).slots.length = 0
    · refine hdrop ?_ (by simp only [begin, if_neg hzero, hat, if_pos hlength])
      rw [State.regs, listOf_of_some hat, List.length_eq_zero_iff.mp hlength]
      rfl
    have hregs : w.observers.regs a event = lives (w.observers.lists id).slots := by
      rw [State.regs, listOf_of_some hat]
    obtain ⟨hperm, horder⟩ := h.registry a event
    obtain ⟨due, hdue, horder', hslots⟩ : ∃ due : List (Registration A C),
        due.Perm (b.registered a event) ∧
        ((w.observers.listOf a event).shuffled = false → due = b.registered a event) ∧
        due.map Registration.slot = w.observers.regs a event := by
      cases hshuffled : (w.observers.listOf a event).shuffled with
      | false => exact ⟨_, .refl _, fun _ => rfl, (horder hshuffled).symm⟩
      | true =>
        obtain ⟨due, hdue, hslots⟩ := exists_perm_of_map Registration.slot hperm
        exact ⟨due, hdue, fun hfalse => absurd hfalse (by simp), hslots⟩
    refine ⟨due, hdue, horder', ?_⟩
    simp only [begin, if_neg hzero, hat, if_neg hlength]
    refine ⟨congrArg (· + 1) h.emissions, h.serial, h.log, h.registry, ?_, ?_⟩
    · intro emission flight hflight
      rw [lookup_insert'] at hflight
      split at hflight
      · next hsame =>
        obtain rfl := Option.some.inj hflight
        refine ⟨due, by rw [hsame, ← h.emissions]; exact setDue_self _ _, ?_, ?_⟩
        · rw [hslots, hregs, pending, List.take_length, List.drop_zero]
        · exact fun r hr => registered_place (hdue.mem_iff.mp hr)
      · next hne =>
        obtain ⟨other, hother, hold⟩ := h.due emission flight hflight
        rw [← h.emissions] at hne
        exact ⟨other, (setDue_of_ne _ hne).trans hother, hold.slots, hold.place⟩
    · intro emission hnone
      rw [lookup_insert'] at hnone
      split at hnone
      · exact absurd hnone (by simp)
      · next hne =>
        rw [← h.emissions] at hne
        exact (congrArg (fun due : Option (List (Registration A C)) => due.getD [])
          (setDue_of_ne _ hne)).trans (h.ended emission hnone)

theorem match_over (h : Matches w b) {emission : ℕ}
    (hnone : w.flights.lookup emission = none) : Matches w (b.setDue emission none) where
  emissions := h.emissions
  serial := h.serial
  log := h.log
  registry := h.registry
  due := by
    intro other flight hflight
    obtain ⟨due, hdue, hold⟩ := h.due other flight hflight
    have hne : other ≠ emission := by
      rintro rfl
      exact absurd (hnone.symm.trans hflight) (by simp)
    exact ⟨due, (setDue_of_ne _ hne).trans hdue, hold⟩
  ended := by
    intro other hother
    by_cases hsame : other = emission
    · simp only [hsame, setDue_self, Option.getD_none]
    · rw [setDue_of_ne _ hsame]
      exact h.ended other hother

theorem match_finish (hinv : Inv w) (h : Matches w b) {emission : ℕ} {flight : Flight A}
    (hflight : w.flights.lookup emission = some flight) (rewinds : Bool) :
    Matches (finish w emission rewinds) (b.setDue emission none) := by
  have hleft : Matches { w with
      observers := { w.observers with depth := w.observers.depth - 1 }
      flights := w.flights.erase emission } (b.setDue emission none) := by
    refine ⟨h.emissions, h.serial, h.log, h.registry, ?_, ?_⟩
    · intro other flight' hother
      rw [lookup_erase'] at hother
      split at hother
      · exact absurd hother (by simp)
      · next hne =>
        obtain ⟨due, hdue, hold⟩ := h.due other flight' hother
        exact ⟨due, (setDue_of_ne _ hne).trans hdue, hold.slots, hold.place⟩
    · intro other hother
      rw [lookup_erase'] at hother
      by_cases hsame : other = emission
      · simp only [hsame, setDue_self, Option.getD_none]
      · rw [if_neg hsame] at hother
        rw [setDue_of_ne _ hsame]
        exact h.ended other hother
  simp only [finish]
  split
  · next hzero =>
    have hkeeps := settle_keeps (hinv.sound.redepth (w.observers.depth - 1)) rewinds
    refine hleft.keeps hkeeps fun other flight' hother => ?_
    have hdepth := hinv.depth
    have hlength := length_erase_of_some hflight
    have hlength' := length_erase_of_some (t := w.flights.erase emission) hother
    omega
  · exact hleft

end Deliver

section Advance

omit [DecidableEq A] in
/-- Consuming a slot strikes its serial. -/
theorem set_eq_strike {slots : List (Slot C)} {index : ℕ} {slot : Slot C}
    (hslot : slots[index]? = some slot) (hlive : slot.live) (hnodup : (serials slots).Nodup) :
    slots.set index slot.tombstone =
      slots.map (strike fun other => other.serial == slot.serial) := by
  have hsplit := congrArg (List.map Slot.serial) (lives_split hslot hlive)
  rw [serials_eq, hsplit, List.map_append, List.map_cons] at hnodup
  have hfresh := (List.nodup_cons.mp (List.perm_middle.nodup_iff.mp hnodup)).1
  have hothers {part : List (Slot C)}
      (h : ∀ serial ∈ (lives part).map Slot.serial, serial ≠ slot.serial) :
      part.map (strike fun other => other.serial == slot.serial) = part := by
    refine (List.map_congr_left fun other hother => ?_).trans (List.map_id part)
    rw [strike, if_neg, id]
    intro hboth
    rw [Bool.and_eq_true, beq_iff_eq] at hboth
    exact h other.serial (List.mem_map_of_mem (List.mem_filter.mpr ⟨hother, hboth.1⟩)) hboth.2
  obtain ⟨hlt, rfl⟩ := List.getElem?_eq_some_iff.mp hslot
  have hparts : slots = slots.take index ++ slots[index] :: slots.drop (index + 1) := by
    rw [← List.drop_eq_getElem_cons hlt, List.take_append_drop]
  have hmap := congrArg (List.map (strike fun other => other.serial == slots[index].serial)) hparts
  rw [List.map_append, List.map_cons] at hmap
  rw [List.set_eq_take_append_cons_drop, if_pos hlt, hmap, hothers, hothers, strike, if_pos]
  · simp [hlive]
  · exact fun serial hmem heq => hfresh (heq ▸ List.mem_append_right _ hmem)
  · exact fun serial hmem heq => hfresh (heq ▸ List.mem_append_left _ hmem)

theorem match_advanced (h : Matches w b) (emission : ℕ) {flight : Flight A} (index : ℕ)
    {due : List (Registration A C)} (hdue : Due w.observers { flight with index := index } due) :
    Matches { w with flights := w.flights.insert emission { flight with index := index } }
      (b.setDue emission (some due)) where
  emissions := h.emissions
  serial := h.serial
  log := h.log
  registry := h.registry
  due := by
    intro other flight' hother
    rw [lookup_insert'] at hother
    split at hother
    · next hsame =>
      obtain rfl := Option.some.inj hother
      exact ⟨due, by rw [hsame, setDue_self], hdue⟩
    · next hne =>
      obtain ⟨old, hold, hslots⟩ := h.due other flight' hother
      exact ⟨old, by rw [setDue_of_ne _ hne, hold], hslots⟩
  ended := by
    intro other hother
    rw [lookup_insert'] at hother
    split at hother
    · exact absurd hother (by simp)
    · next hne =>
      rw [setDue_of_ne _ hne]
      exact h.ended other hother

theorem Matches.logged (h : Matches w b) (calls : List (Call C)) :
    Matches { w with log := calls ++ w.log } { b with log := calls ++ b.log } :=
  ⟨h.emissions, h.serial, congrArg (calls ++ ·) h.log, h.registry, h.due, h.ended⟩

theorem match_advance (hinv : Inv w) (h : Matches w b) (emission : ℕ) (rewinds : Bool) :
    Matches (advance w emission rewinds) (b.turn emission) := by
  unfold advance
  cases hflight : w.flights.lookup emission with
  | none =>
    have hover := h.ended emission hflight
    unfold Bus.turn
    cases hdue : b.due emission with
    | none => exact h
    | some due =>
      rw [hdue, Option.getD_some] at hover
      rw [hover]
      exact match_over h hflight
  | some flight =>
    obtain ⟨due, hdue, hold⟩ := h.due emission flight hflight
    have hflying := hinv.flying emission flight hflight
    have hspec := nextLive_spec (w.observers.lists flight.list).slots flight.n hflying.length
      (flight.n - flight.index) flight.index rfl
    simp only
    cases hnext : nextLive (w.observers.lists flight.list).slots (flight.n - flight.index)
        flight.index with
    | none =>
      rw [hnext] at hspec
      have hnone : due = [] := by
        have hslots := hold.slots
        rw [hspec] at hslots
        exact List.map_eq_nil_iff.mp hslots
      simp only [Bus.turn, hdue, hnone]
      exact match_finish hinv h hflight rewinds
    | some found =>
      obtain ⟨index, slot⟩ := found
      rw [hnext] at hspec
      obtain ⟨hle, hlt, hslot, hlive, hpending⟩ := hspec
      have hslots := hold.slots
      rw [hpending] at hslots
      obtain ⟨r, rest, rfl, rfl, hrest⟩ := List.map_eq_cons_iff.mp hslots
      have hleft := match_advanced h emission (index + 1)
        ⟨hrest, fun other hother => hold.place other (List.mem_cons_of_mem _ hother)⟩
      simp only [Bus.turn, hdue]
      have hconsumes : (!flight.fast && r.slot.once) = r.once := by
        have hsame : r.slot.once = r.once := rfl
        cases honce : r.once with
        | false => simp [hsame, honce]
        | true =>
          cases hfast : flight.fast with
          | false => simp [hsame, honce]
          | true =>
            have hnever := hflying.fast hfast index r.slot hlt hslot
            exact absurd (hsame ▸ hnever) (by simp [honce])
      rw [hconsumes]
      cases honce : r.once with
      | false =>
        simp only [Bool.false_eq_true, if_false]
        exact hleft.logged [Bus.call emission r]
      | true =>
        simp only [if_true]
        have hconsumed := consume_spec hinv.sound hflying (depth_pos hinv hflight) hslot hlive
          (show r.slot.once = true from honce)
        have hnodup : (serials (w.observers.lists flight.list).slots).Nodup :=
          (List.nodup_flatMap.mp hinv.sound.fresh).1 _ hflying.held
        have hremoved : Removed w.observers flight.list (fun other => other.serial == r.serial)
            (consume w.observers flight index r.slot) :=
          ⟨hconsumed.serial, hconsumed.byAddress, hconsumed.lists,
            hconsumed.slots.trans (set_eq_strike hslot hlive hnodup), hconsumed.shuffled⟩
        have hforget := match_removed hleft hremoved (fun other => other.serial == r.serial) ?_ ?_
        · exact hforget.logged [Bus.call emission r]
        · intro a event other hother
          by_cases hattached : w.observers.listAt a event = some flight.list
          · simp [hattached, Registration.slot]
          · have hne := hold.apart hinv.sound hflying (h.registry a event) hattached
              List.mem_cons_self hother
            simp [hattached, Ne.symm hne]
        · intro other flight' due' hother hdue' hheld s hs
          by_cases hsame : flight'.list = flight.list
          · simp [hsame, Registration.slot]
          · have hne : s.serial ≠ r.serial := by
              intro hserial
              have hslot' : s.slot ∈ lives (w.observers.lists flight'.list).slots := by
                apply mem_lives_of_pending flight'.n flight'.index
                rw [← hheld.slots]
                exact List.mem_map_of_mem hs
              have hslot'' : r.slot ∈ lives (w.observers.lists flight.list).slots :=
                List.mem_filter.mpr ⟨List.mem_of_getElem? hslot, hlive⟩
              have hheld' : flight'.list ∈ w.observers.held := by
                rw [lookup_insert'] at hother
                split at hother
                · obtain rfl := Option.some.inj hother
                  exact absurd rfl hsame
                · exact (hinv.flying other flight' hother).held
              exact hsame (list_unique hinv.sound hheld' hflying.held hslot' hslot'' hserial)
            simp [hsame, hne]

theorem match_fail (hinv : Inv w) (h : Matches w b) (emission : ℕ) (rewinds : Bool) :
    Matches (fail w emission rewinds) (b.setDue emission none) := by
  unfold fail
  cases hflight : w.flights.lookup emission with
  | none => exact match_over h hflight
  | some flight => exact match_finish hinv h hflight rewinds

end Advance

end Nupp.events
