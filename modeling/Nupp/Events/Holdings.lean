import Nupp.Lib.Table
import Nupp.Events.Registry

/-! Who holds a list of a bus: the address and event it is attached at, the detached items
of a clear, or the pool. Each operation moves lists between the three and never shares one. -/

namespace Nupp.events

open Table

section Attached

variable {A C : Type}

def mapLists (map : EventMap) : List ℕ := gather (fun _ id => [id]) map

theorem mem_mapLists {map : EventMap} {id : ℕ} :
    id ∈ mapLists map ↔ ∃ event, map.lookup event = some id := by
  simp [mapLists, mem_gather]

theorem mapLists_insert {map : EventMap} {event id : ℕ} (h : map.lookup event = none) :
    mapLists (map.insert event id) = id :: mapLists map := by
  rw [mapLists, gather_insert, erase_of_lookup_none h]
  rfl

theorem mapLists_erase {map : EventMap} {event id : ℕ} (h : map.lookup event = some id) :
    (mapLists map).Perm (id :: mapLists (map.erase event)) :=
  gather_of_lookup _ h

def State.attached (observers : State A C) : List ℕ :=
  gather (fun _ map => mapLists map) observers.byAddress

def Detached.ids : Detached → List ℕ
  | .list id => [id]
  | .map _ => []

def State.cleared (observers : State A C) : List ℕ := observers.detached.flatMap Detached.ids

def State.held (observers : State A C) : List ℕ := observers.attached ++ observers.cleared

/-- No list has two holders, a list nobody delivers from is empty, and so is a pooled map. -/
structure Owned (observers : State A C) : Prop where
  nodup : (observers.held ++ observers.freeLists).Nodup
  below : ∀ id ∈ observers.held ++ observers.freeLists, id < observers.nextList
  empty : ∀ id, id ∉ observers.held → observers.lists id = {}
  maps : ∀ map ∈ observers.freeMaps, map = ∅

variable {s : State A C}

theorem Owned.held_nodup (h : Owned s) : s.held.Nodup := (List.nodup_append.mp h.nodup).1

theorem Owned.attached_nodup (h : Owned s) : s.attached.Nodup :=
  (List.nodup_append.mp h.held_nodup).1

theorem Owned.not_cleared (h : Owned s) {id : ℕ} (hid : id ∈ s.attached) : id ∉ s.cleared :=
  fun hcleared => (List.nodup_append.mp h.held_nodup).2.2 id hid id hcleared rfl

/-- Ownership depends only on the lists each holder has. -/
theorem Owned.of_perm {s s' : State A C} (h : Owned s)
    (hperm : (s'.held ++ s'.freeLists).Perm (s.held ++ s.freeLists))
    (hnext : s'.nextList = s.nextList) (hempty : ∀ id, id ∉ s'.held → s'.lists id = {})
    (hmaps : ∀ map ∈ s'.freeMaps, map = ∅) : Owned s' where
  nodup := hperm.nodup_iff.mpr h.nodup
  below := by
    intro id hid
    rw [hnext]
    exact h.below id (hperm.mem_iff.mp hid)
  empty := hempty
  maps := hmaps

theorem owned_start : Owned ({} : State A C) where
  nodup := List.nodup_nil
  below := by simp [State.held, State.attached, State.cleared]
  empty := fun _ _ => rfl
  maps := by simp

end Attached

section Table

variable {A C : Type} [DecidableEq A] {s : State A C}

theorem listAt_insert (table : AList fun _ : A => EventMap) (a a' : A) (map : EventMap)
    (event : ℕ) :
    ({ s with byAddress := table.insert a map } : State A C).listAt a' event =
      if a' = a then map.lookup event
      else ({ s with byAddress := table } : State A C).listAt a' event := by
  simp only [State.listAt, lookup_insert']
  split <;> rfl

theorem listAt_erase (table : AList fun _ : A => EventMap) (a a' : A) (event : ℕ) :
    ({ s with byAddress := table.erase a } : State A C).listAt a' event =
      if a' = a then none
      else ({ s with byAddress := table } : State A C).listAt a' event := by
  simp only [State.listAt, lookup_erase']
  split <;> rfl

theorem mem_attached {id : ℕ} : id ∈ s.attached ↔ ∃ a event, s.listAt a event = some id := by
  rw [State.attached, mem_gather]
  constructor
  · rintro ⟨a, map, hmap, hid⟩
    obtain ⟨event, hevent⟩ := mem_mapLists.mp hid
    exact ⟨a, event, by simp [State.listAt, hmap, hevent]⟩
  · rintro ⟨a, event, h⟩
    obtain ⟨map, hmap, hevent⟩ := Option.bind_eq_some_iff.mp h
    exact ⟨a, map, hmap, mem_mapLists.mpr ⟨event, hevent⟩⟩

theorem mem_held_of_listAt {a : A} {event id : ℕ} (h : s.listAt a event = some id) :
    id ∈ s.held :=
  List.mem_append_left _ (mem_attached.mpr ⟨a, event, h⟩)

theorem attached_insert (table : AList fun _ : A => EventMap) (a : A) (map : EventMap) :
    (mapLists ((table.lookup a).getD ∅) ++
        ({ s with byAddress := table.insert a map } : State A C).attached).Perm
      (mapLists map ++ ({ s with byAddress := table } : State A C).attached) := by
  simp only [State.attached, gather_insert]
  cases h : table.lookup a with
  | none =>
    rw [erase_of_lookup_none h]
    exact .refl _
  | some old =>
    have hsplit := gather_of_lookup (fun _ map => mapLists map) h
    exact List.perm_append_comm_assoc _ _ _ |>.trans (hsplit.symm.append_left _)

theorem attached_erase (table : AList fun _ : A => EventMap) (a : A) :
    (mapLists ((table.lookup a).getD ∅) ++
        ({ s with byAddress := table.erase a } : State A C).attached).Perm
      ({ s with byAddress := table } : State A C).attached := by
  simp only [State.attached]
  cases h : table.lookup a with
  | none =>
    rw [erase_of_lookup_none h]
    exact .refl _
  | some old => exact (gather_of_lookup (fun _ map => mapLists map) h).symm

theorem Owned.map_nodup (h : Owned s) {a : A} {map : EventMap}
    (hmap : s.byAddress.lookup a = some map) : (mapLists map).Nodup := by
  have hsplit := gather_of_lookup (fun _ map => mapLists map) hmap
  exact (List.nodup_append.mp (hsplit.nodup_iff.mp h.attached_nodup)).1

/-- A list is attached at one address and event only. -/
theorem Owned.listAt_unique (h : Owned s) {a a' : A} {event event' id : ℕ}
    (hat : s.listAt a event = some id) (hat' : s.listAt a' event' = some id) :
    a' = a ∧ event' = event := by
  obtain ⟨map, hmap, hevent⟩ := Option.bind_eq_some_iff.mp hat
  obtain ⟨map', hmap', hevent'⟩ := Option.bind_eq_some_iff.mp hat'
  have haddress : a = a' := key_unique h.attached_nodup hmap hmap'
    (mem_mapLists.mpr ⟨event, hevent⟩) (mem_mapLists.mpr ⟨event', hevent'⟩)
  subst haddress
  obtain rfl : map = map' := by simpa [hmap] using hmap'
  have hkey : event = event' := key_unique (f := fun _ id => [id]) (h.map_nodup hmap) hevent
    hevent' (List.mem_singleton.mpr rfl) (List.mem_singleton.mpr rfl)
  exact ⟨rfl, hkey.symm⟩

end Table

end Nupp.events
