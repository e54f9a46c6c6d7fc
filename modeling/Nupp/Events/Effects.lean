import Mathlib.Algebra.BigOperators.Group.List.Basic
import Nupp.Events.Holdings
import Nupp.Events.Slots

/-! What the operations of a bus do to the registrations it keeps, told by the list attached
at each address and event. -/

namespace Nupp.events

section Sums

/-- A sum over distinct items after one of them changed. -/
theorem sum_update {items : List ℕ} {β : Type*} (f : β → ℕ) (g : ℕ → β) {id : ℕ} (value : β)
    (hnodup : items.Nodup) (hid : id ∈ items) :
    (items.map fun item => f (Function.update g id value item)).sum + f (g id) =
      (items.map fun item => f (g item)).sum + f value := by
  induction items with
  | nil => simp at hid
  | cons item items ih =>
    obtain ⟨hnew, hrest⟩ := List.nodup_cons.mp hnodup
    rcases List.mem_cons.mp hid with rfl | hid
    · have hsame : (items.map fun item => f (Function.update g id value item)) =
          items.map fun item => f (g item) := by
        apply List.map_congr_left
        intro other hother
        have hother' : other ≠ id := fun h => hnew (h ▸ hother)
        rw [Function.update_of_ne hother']
      simp only [List.map_cons, List.sum_cons, Function.update_self, hsame]
      omega
    · have hne : item ≠ id := fun h => hnew (h ▸ hid)
      have hind := ih hrest hid
      simp only [List.map_cons, List.sum_cons, Function.update_of_ne hne]
      omega

theorem map_update_of_notMem {items : List ℕ} {β γ : Type*} (f : β → γ) (g : ℕ → β) {id : ℕ}
    (value : β) (hid : id ∉ items) :
    (items.map fun item => f (Function.update g id value item)) =
      items.map fun item => f (g item) := by
  apply List.map_congr_left
  intro item hitem
  have hne : item ≠ id := fun h => hid (h ▸ hitem)
  rw [Function.update_of_ne hne]

theorem flatMap_update {items : List ℕ} {β γ : Type*} (f : β → List γ) (g : ℕ → β) {id : ℕ}
    (value : β) (hnodup : items.Nodup) (hid : id ∈ items) :
    ∃ others, (items.flatMap fun item => f (g item)).Perm (f (g id) ++ others) ∧
      (items.flatMap fun item => f (Function.update g id value item)).Perm
        (f value ++ others) := by
  have hperm : items.Perm (id :: items.erase id) := List.perm_cons_erase hid
  have hnew : id ∉ items.erase id :=
    (List.nodup_cons.mp (hperm.nodup_iff.mp hnodup)).1
  have hsame : ((items.erase id).flatMap fun item => f (Function.update g id value item)) =
      (items.erase id).flatMap fun item => f (g item) := by
    rw [List.flatMap_def, List.flatMap_def, map_update_of_notMem f g value hnew]
  refine ⟨(items.erase id).flatMap fun item => f (g item), ?_, ?_⟩
  · simpa using hperm.flatMap_right fun item => f (g item)
  · have hafter := hperm.flatMap_right fun item => f (Function.update g id value item)
    rw [List.flatMap_cons, Function.update_self, hsame] at hafter
    exact hafter

theorem nodup_of_subperm {α : Type*} {xs ys : List α} (h : xs.Subperm ys) (hys : ys.Nodup) :
    xs.Nodup := by
  obtain ⟨zs, hperm, hsub⟩ := h
  exact hperm.nodup_iff.mp (hys.sublist hsub)

end Sums

variable {A C : Type}

/-- The registrations that a later emission could reach, over every address and event. -/
def live (observers : State A C) : ℕ :=
  (observers.attached.map fun id => liveIn (observers.lists id)).sum

def allSerials (observers : State A C) : List ℕ :=
  observers.held.flatMap fun id => serials (observers.lists id).slots

/-- The lists of a bus are in order, and no serial is used twice. -/
structure Sound (observers : State A C) : Prop where
  owned : Owned observers
  lists : ∀ id, ListOk (observers.lists id)
  fresh : (allSerials observers).Nodup
  below : ∀ serial ∈ allSerials observers, serial < observers.nextSerial

theorem sound_start : Sound ({} : State A C) where
  owned := owned_start
  lists := fun _ => listOk_empty
  fresh := List.nodup_nil
  below := by simp [allSerials, State.held, State.attached, State.cleared]

section SetList

variable {s : State A C} {id : ℕ} {list : ObserverList C}

@[simp]
theorem setList_attached : (s.setList id list).attached = s.attached := rfl

@[simp]
theorem setList_held : (s.setList id list).held = s.held := rfl

@[simp]
theorem setList_self : (s.setList id list).lists id = list := Function.update_self ..

theorem setList_of_ne {other : ℕ} (h : other ≠ id) :
    (s.setList id list).lists other = s.lists other := Function.update_of_ne h ..

@[simp]
theorem setList_setList (list' : ObserverList C) :
    (s.setList id list).setList id list' = s.setList id list' := by
  simp [State.setList]

theorem setList_owned (list : ObserverList C) (h : Owned s) (hid : id ∈ s.held) : Owned (s.setList id list) := by
  refine h.of_perm (.refl _) rfl ?_ h.maps
  intro other hother
  have hne : other ≠ id := by
    rintro rfl
    exact hother hid
  rw [setList_of_ne hne]
  exact h.empty other hother

theorem setList_live (list : ObserverList C) (h : Owned s) (hid : id ∈ s.attached) :
    live (s.setList id list) + liveIn (s.lists id) = live s + liveIn list :=
  sum_update liveIn s.lists list h.attached_nodup hid

theorem setList_live_of_notMem (list : ObserverList C) (hid : id ∉ s.attached) :
    live (s.setList id list) = live s :=
  congrArg List.sum (map_update_of_notMem liveIn s.lists list hid)

theorem setList_lists (h : ∀ id, ListOk (s.lists id)) (hlist : ListOk list) (other : ℕ) :
    ListOk ((s.setList id list).lists other) := by
  by_cases hother : other = id
  · subst hother
    rw [setList_self]
    exact hlist
  · rw [setList_of_ne hother]
    exact h other

theorem setList_allSerials (h : Owned s) (hid : id ∈ s.held)
    (hlist : (serials list.slots).Subperm (serials (s.lists id).slots)) :
    (allSerials (s.setList id list)).Subperm (allSerials s) := by
  obtain ⟨others, hbefore, hafter⟩ := flatMap_update
    (fun list : ObserverList C => serials list.slots) s.lists list h.held_nodup hid
  exact hafter.subperm.trans
    (((List.subperm_append_right others).mpr hlist).trans hbefore.symm.subperm)

/-- A list that loses registrations leaves a bus sound. -/
theorem setList_sound (h : Sound s) (hid : id ∈ s.held) (hlist : ListOk list)
    (hserials : (serials list.slots).Subperm (serials (s.lists id).slots)) :
    Sound (s.setList id list) where
  owned := setList_owned list h.owned hid
  lists := setList_lists h.lists hlist
  fresh := nodup_of_subperm (setList_allSerials h.owned hid hserials) h.fresh
  below := fun serial hserial =>
    h.below serial ((setList_allSerials h.owned hid hserials).subset hserial)

end SetList

/-- Soundness depends on the lists each holder has and on what they contain. -/
theorem Sound.of_perm {s s' : State A C} (h : Sound s) (howned : Owned s')
    (hlists : ∀ id, ListOk (s'.lists id)) (hserials : (allSerials s').Subperm (allSerials s))
    (hnext : s.nextSerial ≤ s'.nextSerial) : Sound s' where
  owned := howned
  lists := hlists
  fresh := nodup_of_subperm hserials h.fresh
  below := fun serial hserial => (h.below serial (hserials.subset hserial)).trans_le hnext

section Attached

variable [DecidableEq A]

/-- The list attached at an address and event, or an empty one. -/
def State.listOf (observers : State A C) (address : A) (event : ℕ) : ObserverList C :=
  match observers.listAt address event with
  | none => {}
  | some id => observers.lists id

/-- The registrations that an emission would call. -/
def State.regs (observers : State A C) (address : A) (event : ℕ) : List (Slot C) :=
  lives (observers.listOf address event).slots

variable {s s' s'' : State A C}

theorem listOf_of_some {a : A} {event id : ℕ} (h : s.listAt a event = some id) :
    s.listOf a event = s.lists id := by
  simp only [State.listOf, h]

theorem listOf_of_none {a : A} {event : ℕ} (h : s.listAt a event = none) :
    s.listOf a event = {} := by
  simp only [State.listOf, h]

/-- The registrations are kept, though perhaps in another order, which is then recorded. -/
structure Keeps (s s' : State A C) : Prop where
  sound : Sound s'
  live : live s' = live s
  count : s'.count = s.count
  depth : s'.depth = s.depth
  serial : s'.nextSerial = s.nextSerial
  regs : ∀ a event, (s'.regs a event).Perm (s.regs a event)
  order : ∀ a event, (s'.listOf a event).shuffled = false →
    s'.regs a event = s.regs a event ∧
      ((s.listOf a event).shuffled = false ∨ s.regs a event = [])

theorem Keeps.refl (h : Sound s) : Keeps s s where
  sound := h
  live := rfl
  count := rfl
  depth := rfl
  serial := rfl
  regs := fun _ _ => .refl _
  order := fun _ _ hshuffled => ⟨rfl, .inl hshuffled⟩

theorem Keeps.trans (h : Keeps s s') (h' : Keeps s' s'') : Keeps s s'' where
  sound := h'.sound
  live := h'.live.trans h.live
  count := h'.count.trans h.count
  depth := h'.depth.trans h.depth
  serial := h'.serial.trans h.serial
  regs := fun a event => (h'.regs a event).trans (h.regs a event)
  order := by
    intro a event hshuffled
    obtain ⟨hregs', hbefore⟩ := h'.order a event hshuffled
    rcases hbefore with hunshuffled | hempty
    · obtain ⟨hregs, hfirst⟩ := h.order a event hunshuffled
      exact ⟨hregs'.trans hregs, hfirst⟩
    · have hnone : s.regs a event = [] := by
        have hperm := h.regs a event
        rw [hempty] at hperm
        exact hperm.symm.eq_nil
      exact ⟨by rw [hregs', hempty, hnone], .inr hnone⟩

end Attached

end Nupp.events
