import Nupp.Events.Remove

/-! What a delivery in flight relies on: the list it holds stays with the bus, and the slots
it has yet to reach change only by removal. -/

namespace Nupp.events

open Table

section Slots

variable {C : Type}

/-- Slots as a delivery sees them change: some are struck, and some are added behind. -/
def Evolved (old new : List (Slot C)) : Prop :=
  old.length ≤ new.length ∧ ∀ (index : ℕ) (slot : Slot C), old[index]? = some slot →
    new[index]? = some slot ∨ new[index]? = some slot.tombstone

theorem evolved_refl (slots : List (Slot C)) : Evolved slots slots :=
  ⟨le_rfl, fun _ _ h => .inl h⟩

theorem evolved_append (slots : List (Slot C)) (slot : Slot C) :
    Evolved slots (slots ++ [slot]) := by
  refine ⟨by simp, fun index old h => .inl ?_⟩
  have hlt := (List.getElem?_eq_some_iff.mp h).1
  rw [List.getElem?_append_left hlt]
  exact h

theorem evolved_strike (gone : Slot C → Bool) (slots : List (Slot C)) :
    Evolved slots (slots.map (strike gone)) := by
  refine ⟨by simp, fun index old h => ?_⟩
  simp only [List.getElem?_map, h, Option.map_some, Option.some.injEq]
  rw [strike]
  split
  · exact .inr rfl
  · exact .inl rfl

theorem evolved_set {slots : List (Slot C)} {index : ℕ} {slot : Slot C}
    (h : slots[index]? = some slot) : Evolved slots (slots.set index slot.tombstone) := by
  refine ⟨by simp, fun other old hold => ?_⟩
  by_cases hsame : index = other
  · subst hsame
    obtain rfl : slot = old := by simpa [h] using hold
    have hlt := (List.getElem?_eq_some_iff.mp h).1
    exact .inr (by simp [hlt])
  · exact .inl (by rw [List.getElem?_set_ne hsame]; exact hold)

end Slots

variable {A C : Type} [DecidableEq A]

/-- A delivery whose list is attached is attached where the delivery began. -/
structure Flying (s : State A C) (flight : Flight A) : Prop where
  held : flight.list ∈ s.held
  at_ : ∀ a event, s.listAt a event = some flight.list →
    a = flight.address ∧ event = flight.event
  length : flight.n ≤ (s.lists flight.list).slots.length
  fast : flight.fast = true → ∀ index slot, index < flight.n →
    (s.lists flight.list).slots[index]? = some slot → slot.once = false

variable {s s' : State A C} {flight : Flight A}

theorem Flying.evolves (h : Flying s flight) (hheld : flight.list ∈ s'.held)
    (hat : ∀ a event, s'.listAt a event = some flight.list →
      s.listAt a event = some flight.list)
    (hslots : Evolved (s.lists flight.list).slots (s'.lists flight.list).slots) :
    Flying s' flight where
  held := hheld
  at_ := fun a event hlist => h.at_ a event (hat a event hlist)
  length := h.length.trans hslots.1
  fast := by
    intro hfast index slot hlt hslot
    have hold : index < (s.lists flight.list).slots.length := hlt.trans_le h.length
    have hget := List.getElem?_eq_getElem hold
    generalize (s.lists flight.list).slots[index] = old at hget
    have honce := h.fast hfast index old hlt hget
    rcases hslots.2 index old hget with hsame | hstruck
    · obtain rfl : old = slot := by simpa [hsame] using hslot
      exact honce
    · obtain rfl : old.tombstone = slot := by simpa [hstruck] using hslot
      rfl

theorem Flying.attached_iff (h : Flying s flight) :
    flight.list ∈ s.attached ↔ s.listAt flight.address flight.event = some flight.list := by
  constructor
  · intro hattached
    obtain ⟨a, event, hlist⟩ := mem_attached.mp hattached
    obtain ⟨rfl, rfl⟩ := h.at_ a event hlist
    exact hlist
  · exact fun hlist => mem_attached.mpr ⟨_, _, hlist⟩

theorem Flying.alike (h : Flying s flight) (halike : Alike s s') : Flying s' flight := by
  refine h.evolves (halike.held.mem_iff.mpr h.held) ?_ ?_
  · intro a event hlist
    rwa [halike.listAt] at hlist
  · rw [halike.lists]
    exact evolved_refl _

theorem Flying.registered {a : A} {event : ℕ} {slot : Slot C} (h : Flying s flight)
    (hregistered : Registered s a event slot s') : Flying s' flight := by
  obtain ⟨id, hid, hat, hlists, hslots, -⟩ := hregistered.list
  refine h.evolves (hregistered.held _ h.held) ?_ ?_
  · intro a' event' hlist
    rw [hat] at hlist
    split at hlist
    · next hsame =>
      obtain rfl : id = flight.list := Option.some.inj hlist
      rcases hid with hold | hnew
      · rw [hsame.1, hsame.2]
        exact hold
      · exact absurd h.held hnew
    · exact hlist
  · rw [hlists]
    by_cases hsame : flight.list = id
    · rcases hid with hold | hnew
      · rw [hsame, Function.update_self, hslots, listOf_of_some hold]
        exact evolved_append _ _
      · exact absurd (hsame ▸ h.held) hnew
    · rw [Function.update_of_ne hsame]
      exact evolved_refl _

theorem Flying.struck [DecidableEq C] {a : A} {event id : ℕ} {key : Key C}
    (h : Flying s flight) (hstruck : Struck s a event key id s') : Flying s' flight := by
  have hheld : s'.held = s.held := by
    rw [State.held, State.held, State.attached, State.cleared, hstruck.byAddress,
      hstruck.detached, State.attached, State.cleared]
  refine h.evolves (by rw [hheld]; exact h.held) ?_ ?_
  · intro a' event' hlist
    rwa [State.listAt, hstruck.byAddress] at hlist
  · by_cases hsame : flight.list = id
    · rw [hsame, hstruck.slots]
      exact evolved_strike _ _
    · rw [hstruck.lists, Function.update_of_ne hsame]
      exact evolved_refl _

theorem Flying.cleared {addresses : List A} (h : Flying s flight) (hpos : 0 < s.depth)
    (hcleared : Cleared s addresses s') : Flying s' flight := by
  obtain ⟨hheld, hlists, hat⟩ := hcleared.held hpos
  refine h.evolves (hheld _ h.held) (fun a event hlist => (hat a event _ hlist).1) ?_
  rw [hlists]
  exact evolved_refl _

section Consume

/-- A once registration that a delivery consumed: it is counted off wherever its list is. -/
structure Consumed (s : State A C) (flight : Flight A) (index : ℕ) (slot : Slot C)
    (s' : State A C) : Prop where
  sound : Sound s'
  missed : (live s' : ℤ) - s'.count =
    live s - s.count +
      if s.listAt flight.address flight.event = some flight.list then 0 else 1
  depth : s'.depth = s.depth
  serial : s'.nextSerial = s.nextSerial
  byAddress : s'.byAddress = s.byAddress
  cleared : s'.cleared.Perm s.cleared
  lists : s'.lists = Function.update s.lists flight.list (s'.lists flight.list)
  slots : (s'.lists flight.list).slots =
    (s.lists flight.list).slots.set index slot.tombstone
  shuffled : (s'.lists flight.list).shuffled = (s.lists flight.list).shuffled

theorem lives_set_length {slots : List (Slot C)} {index : ℕ} {slot : Slot C}
    (h : slots[index]? = some slot) (hlive : slot.live) :
    (lives (slots.set index slot.tombstone)).length + 1 = (lives slots).length := by
  rw [lives_set h, lives_split h hlive]
  simp only [List.length_append, List.length_cons]
  omega

theorem consume_spec (h : Sound s) (hflying : Flying s flight) (hpos : 0 < s.depth)
    {index : ℕ} {slot : Slot C} (hslot : (s.lists flight.list).slots[index]? = some slot)
    (hlive : slot.live) (honce : slot.once) :
    Consumed s flight index slot (consume s flight index slot) := by
  have hok := set_ok (h.lists flight.list) hslot honce
  obtain ⟨list, hlist⟩ : ∃ list : ObserverList C, list = { s.lists flight.list with
    slots := (s.lists flight.list).slots.set index slot.tombstone
    once := (s.lists flight.list).once - 1
    holes := (s.lists flight.list).holes + 1 } := ⟨_, rfl⟩
  rw [← hlist] at hok
  have hconsume : consume s flight index slot =
      touched { s.setList flight.list list with count := s.count - 1 } flight.address
        flight.event flight.list := by
    rw [hlist]
    rfl
  have hslots : list.slots = (s.lists flight.list).slots.set index slot.tombstone := by
    rw [hlist]
  have hlength : liveIn list + 1 = liveIn (s.lists flight.list) := by
    rw [liveIn_eq, liveIn_eq, hslots]
    exact lives_set_length hslot hlive
  have hserials : (serials list.slots).Sublist (serials (s.lists flight.list).slots) := by
    rw [serials_eq, serials_eq, hslots, lives_set hslot, lives_split hslot hlive]
    exact ((List.sublist_cons_self _ _).append_left _).map _
  have hsound := setList_sound h hflying.held hok hserials.subperm
  obtain ⟨hkeeps, halike⟩ := touched_keeps flight.address flight.event flight.list
    (hsound.recount (s.count - 1)) (.inr hpos)
  have hsame := halike hpos
  rw [← hconsume] at hkeeps hsame
  have hself : (consume s flight index slot).lists flight.list = list := by
    rw [hsame.lists]
    exact setList_self
  refine ⟨hkeeps.sound, ?_, hkeeps.depth, hkeeps.serial, hsame.byAddress, hsame.cleared, ?_, ?_,
    ?_⟩
  · have hlives : live (consume s flight index slot) = live (s.setList flight.list list) :=
      hkeeps.live
    have hcount : (consume s flight index slot).count = s.count - 1 := hkeeps.count
    by_cases hat : s.listAt flight.address flight.event = some flight.list
    · have hsum := setList_live list h.owned (hflying.attached_iff.mpr hat)
      rw [if_pos hat]
      omega
    · have hsum := setList_live_of_notMem (s := s) list
        (fun hmem => hat (hflying.attached_iff.mp hmem))
      rw [if_neg hat]
      omega
  · rw [hself]
    exact hsame.lists
  · rw [hself, hslots]
  · rw [hself, hlist]

theorem Flying.consumed {other : Flight A} {index : ℕ} {slot : Slot C} (h : Flying s other)
    (hslot : (s.lists flight.list).slots[index]? = some slot)
    (hconsumed : Consumed s flight index slot s') : Flying s' other := by
  have hheld : s'.held.Perm s.held := by
    rw [State.held, State.held, State.attached, State.attached, hconsumed.byAddress]
    exact hconsumed.cleared.append_left _
  refine h.evolves (hheld.mem_iff.mpr h.held) ?_ ?_
  · intro a event hlist
    rwa [State.listAt, hconsumed.byAddress] at hlist
  · by_cases hsame : other.list = flight.list
    · rw [hsame, hconsumed.slots]
      exact evolved_set hslot
    · rw [hconsumed.lists, Function.update_of_ne hsame]
      exact evolved_refl _

end Consume

end Nupp.events
