import Nupp.Events.Effects

/-! Compaction, pruning and the deferred work of a bus keep its registrations. -/

namespace Nupp.events

open Table

variable {A C : Type} [DecidableEq A] {s : State A C} {a : A} {event id : ℕ}

theorem listOf_setList (list : ObserverList C) (a' : A) (event' : ℕ) :
    (s.setList id list).listOf a' event' =
      if s.listAt a' event' = some id then list else s.listOf a' event' := by
  have hat : (s.setList id list).listAt a' event' = s.listAt a' event' := rfl
  cases h : s.listAt a' event' with
  | none =>
    rw [listOf_of_none (hat.trans h), listOf_of_none h]
    rfl
  | some other =>
    rw [listOf_of_some (hat.trans h), listOf_of_some h]
    by_cases hother : other = id
    · subst hother
      simp
    · rw [if_neg (fun hsame => hother (Option.some.inj hsame)), setList_of_ne hother]

/-- A list in order is compacted where it is attached. -/
theorem compact_keeps (h : Sound s) (hat : s.listAt a event = some id) :
    Keeps s (s.setList id (compact (s.lists id))) := by
  have hattached : id ∈ s.attached := mem_attached.mpr ⟨a, event, hat⟩
  have hheld : id ∈ s.held := mem_held_of_listAt hat
  have hperm := lives_compact_perm (s.lists id)
  have hserials : (serials (compact (s.lists id)).slots).Perm (serials (s.lists id).slots) :=
    hperm.map _
  have hnodup : (serials (s.lists id).slots).Nodup :=
    (List.nodup_flatMap.mp h.fresh).1 id hheld
  refine ⟨setList_sound h hheld (compact_ok (h.lists id)) hserials.subperm, ?_, rfl, rfl, rfl,
    ?_, ?_⟩
  · have hlive := setList_live (compact (s.lists id)) h.owned hattached
    have hsame : liveIn (compact (s.lists id)) = liveIn (s.lists id) := by
      rw [liveIn_eq, liveIn_eq, hperm.length_eq]
    omega
  · intro a' event'
    rw [State.regs, State.regs, listOf_setList]
    split
    · next hsame =>
      rw [listOf_of_some hsame]
      exact hperm
    · exact .refl _
  · intro a' event'
    rw [State.regs, State.regs, listOf_setList]
    split
    · next hsame =>
      rw [listOf_of_some hsame]
      intro hshuffled
      obtain ⟨hbefore, hlives⟩ := lives_compact_eq hnodup hshuffled
      exact ⟨hlives, .inl hbefore⟩
    · exact fun hshuffled => ⟨rfl, .inl hshuffled⟩

/-- What pruning does with the list of an address and event. -/
structure Dropped (s : State A C) (a : A) (event id : ℕ) (s' : State A C) : Prop where
  at_ : ∀ a' event', s'.listAt a' event' =
    if a' = a ∧ event' = event then none else s.listAt a' event'
  attached : s.attached.Perm (id :: s'.attached)
  maps : (∀ map ∈ s.freeMaps, map = ∅) → ∀ map ∈ s'.freeMaps, map = ∅
  rest : ∃ byAddress freeMaps, s' =
    { s with
      byAddress := byAddress
      freeMaps := freeMaps
      lists := Function.update s.lists id {}
      freeLists := id :: s.freeLists }

theorem prune_of_slots (h : (s.lists id).slots ≠ []) : prune s a event id = s := by
  rw [prune, if_pos h]

private theorem attached_erased {map : EventMap} (hmap : s.byAddress.lookup a = some map)
    (hevent : map.lookup event = some id) :
    s.attached.Perm (id ::
      ({ s with byAddress := s.byAddress.insert a (map.erase event) } : State A C).attached) := by
  have hinsert := attached_insert (s := s) s.byAddress a (map.erase event)
  rw [hmap] at hinsert
  have hsplit := (mapLists_erase hevent).append_right
    ({ s with byAddress := s.byAddress.insert a (map.erase event) } : State A C).attached
  have hmiddle := hsplit.symm.trans hinsert
  rw [List.cons_append] at hmiddle
  exact ((List.perm_append_left_iff _).mp (List.perm_middle.trans hmiddle)).symm

theorem prune_dropped (h : (s.lists id).slots = []) (hat : s.listAt a event = some id) :
    Dropped s a event id (prune s a event id) := by
  obtain ⟨map, hmap, hevent⟩ := Option.bind_eq_some_iff.mp hat
  have hattached := attached_erased hmap hevent
  have hat' (a' : A) (event' : ℕ) :
      ({ s with byAddress := s.byAddress.insert a (map.erase event) } : State A C).listAt a'
        event' = if a' = a ∧ event' = event then none else s.listAt a' event' := by
    rw [listAt_insert, lookup_erase']
    by_cases ha : a' = a
    · subst ha
      simp [State.listAt, hmap]
    · simp [ha, State.listAt]
  simp only [prune, if_neg (not_not.mpr h), hmap, if_neg (not_not.mpr hevent)]
  split
  · next hleft =>
    have hempty : map.erase event = ∅ := AList.ext (List.isEmpty_iff.mp hleft)
    refine ⟨?_, ?_, ?_, ⟨_, _, rfl⟩⟩
    · intro a' event'
      have herase := listAt_erase (s := s) (s.byAddress.insert a (map.erase event)) a a' event'
      rw [hat'] at herase
      refine herase.trans ?_
      by_cases ha : a' = a
      · subst ha
        have hgone := hat' a' event'
        rw [listAt_insert, if_pos rfl, hempty, AList.lookup_empty] at hgone
        rw [if_pos rfl]
        exact hgone
      · rw [if_neg ha]
    · have herase := attached_erase (s := s) (s.byAddress.insert a (map.erase event)) a
      have hnone : mapLists (map.erase event) = [] := by
        rw [hempty]
        rfl
      rw [AList.lookup_insert, Option.getD_some, hnone, List.nil_append] at herase
      exact hattached.trans (herase.symm.cons id)
    · intro hmaps other hother
      rcases List.mem_cons.mp hother with rfl | hother
      · rfl
      · exact hmaps other hother
  · exact ⟨hat', hattached, fun hmaps => hmaps, ⟨_, _, rfl⟩⟩

/-- A list that is emptied and given to the pool. -/
structure Given (s : State A C) (id : ℕ) (s' : State A C) : Prop where
  lists : s'.lists = Function.update s.lists id {}
  free : s'.freeLists = id :: s.freeLists
  held : s.held.Perm (id :: s'.held)
  next : s'.nextList = s.nextList
  serial : s'.nextSerial = s.nextSerial
  maps : (∀ map ∈ s.freeMaps, map = ∅) → ∀ map ∈ s'.freeMaps, map = ∅

omit [DecidableEq A] in
theorem Given.same {s' : State A C} (hgiven : Given s id s') (h : Sound s) :
    ∀ other ∈ s'.held, s'.lists other = s.lists other := by
  intro other hheld
  have hnodup := hgiven.held.nodup_iff.mp h.owned.held_nodup
  have hne : other ≠ id := by
    rintro rfl
    exact (List.nodup_cons.mp hnodup).1 hheld
  rw [hgiven.lists, Function.update_of_ne hne]

omit [DecidableEq A] in
theorem Given.sound {s' : State A C} (hgiven : Given s id s') (h : Sound s) : Sound s' := by
  refine h.of_perm ?_ ?_ ?_ hgiven.serial.ge
  · refine h.owned.of_perm ?_ hgiven.next ?_ (hgiven.maps h.owned.maps)
    · rw [hgiven.free]
      exact List.perm_middle.trans (hgiven.held.symm.append_right s.freeLists)
    · intro other hnot
      by_cases hne : other = id
      · rw [hne, hgiven.lists, Function.update_self]
      · rw [hgiven.lists, Function.update_of_ne hne]
        apply h.owned.empty
        intro hheld
        rcases List.mem_cons.mp (hgiven.held.mem_iff.mp hheld) with hsame | hold
        · exact hne hsame
        · exact hnot hold
  · rw [hgiven.lists]
    exact setList_lists (s := s) h.lists listOk_empty
  · have heq : allSerials s' = s'.held.flatMap fun other => serials (s.lists other).slots :=
      List.flatMap_congr fun other hheld => by rw [hgiven.same h other hheld]
    have hall := hgiven.held.flatMap_right fun other => serials (s.lists other).slots
    rw [List.flatMap_cons, ← heq] at hall
    exact (List.sublist_append_right _ _).subperm.trans hall.symm.subperm

/-- Where the same lists are attached with the same contents, an emission reaches the same. -/
theorem listOf_congr {s' : State A C} {a' : A} {event' : ℕ}
    (hat : s'.listAt a' event' = s.listAt a' event')
    (hsame : ∀ other ∈ s'.held, s'.lists other = s.lists other) :
    s'.listOf a' event' = s.listOf a' event' := by
  cases hsome : s.listAt a' event' with
  | none => rw [listOf_of_none (hat.trans hsome), listOf_of_none hsome]
  | some other =>
    rw [listOf_of_some (hat.trans hsome), listOf_of_some hsome,
      hsame other (mem_held_of_listAt (hat.trans hsome))]

/-- An empty list leaves its address and event without changing what an emission reaches. -/
theorem dropped_keeps {s' : State A C} (h : Sound s) (hat : s.listAt a event = some id)
    (hslots : (s.lists id).slots = []) (hdrop : Dropped s a event id s') :
    Keeps s s' ∧ s'.detached = s.detached := by
  obtain ⟨byAddress, freeMaps, hrest⟩ := hdrop.rest
  have hdetached : s'.detached = s.detached := by rw [hrest]
  have hgiven : Given s id s' := by
    refine ⟨by rw [hrest], by rw [hrest], ?_, by rw [hrest], by rw [hrest], hdrop.maps⟩
    rw [State.held, State.held, State.cleared, State.cleared, hdetached]
    exact hdrop.attached.append_right _
  have hsame := hgiven.same h
  have hlistOf (a' : A) (event' : ℕ) (hne : ¬(a' = a ∧ event' = event)) :
      s'.listOf a' event' = s.listOf a' event' := by
    have hat' := hdrop.at_ a' event'
    rw [if_neg hne] at hat'
    exact listOf_congr hat' hsame
  have hgone : s'.regs a event = [] := by
    have hnone := hdrop.at_ a event
    rw [if_pos ⟨rfl, rfl⟩] at hnone
    rw [State.regs, listOf_of_none hnone]
    rfl
  have hempty : s.regs a event = [] := by
    rw [State.regs, listOf_of_some hat, hslots]
    rfl
  refine ⟨⟨hgiven.sound h, ?_, by rw [hrest], by rw [hrest], hgiven.serial, ?_, ?_⟩, hdetached⟩
  · have hsum := (hdrop.attached.map fun other => liveIn (s.lists other)).sum_eq
    have hzero : liveIn (s.lists id) = 0 := by simp [liveIn, hslots]
    have hkept : (s'.attached.map fun other => liveIn (s'.lists other)) =
        s'.attached.map fun other => liveIn (s.lists other) :=
      List.map_congr_left fun other hattached => by
        rw [hsame other (List.mem_append_left _ hattached)]
    rw [live, live, hkept, hsum, List.map_cons, List.sum_cons, hzero, Nat.zero_add]
  · intro a' event'
    by_cases hne : a' = a ∧ event' = event
    · rw [hne.1, hne.2, hgone, hempty]
    · rw [State.regs, State.regs, hlistOf a' event' hne]
  · intro a' event' hshuffled
    by_cases hne : a' = a ∧ event' = event
    · rw [hne.1, hne.2, hgone, hempty]
      exact ⟨rfl, .inr rfl⟩
    · rw [hlistOf a' event' hne] at hshuffled
      rw [State.regs, State.regs, hlistOf a' event' hne]
      exact ⟨rfl, .inl hshuffled⟩

/-- Compacting the list of an address and event, and giving back an empty one, keeps every
registration and leaves the other addresses and events as they were. -/
theorem compactAt_keeps (h : Sound s) (hat : s.listAt a event = some id) :
    Keeps s (compactAt s a event id) ∧
      (compactAt s a event id).detached = s.detached ∧
      ∀ a' event', ¬(a' = a ∧ event' = event) →
        (compactAt s a event id).listAt a' event' = s.listAt a' event' := by
  have hcompact := compact_keeps h hat
  by_cases hslots : (compact (s.lists id)).slots = []
  · have hslots' : ((s.setList id (compact (s.lists id))).lists id).slots = [] := by
      rw [setList_self]
      exact hslots
    have hdrop := prune_dropped (s := s.setList id (compact (s.lists id))) hslots' hat
    obtain ⟨hkeeps, hdetached⟩ := dropped_keeps hcompact.sound hat hslots' hdrop
    refine ⟨hcompact.trans hkeeps, hdetached, fun a' event' hne => ?_⟩
    have hat' := hdrop.at_ a' event'
    rw [if_neg hne] at hat'
    exact hat'
  · have hsame : compactAt s a event id = s.setList id (compact (s.lists id)) := by
      rw [compactAt, prune_of_slots]
      rw [setList_self]
      exact hslots
    rw [hsame]
    exact ⟨hcompact, rfl, fun _ _ _ => rfl⟩

theorem settleMap_keeps (entries : List (Sigma fun _ : ℕ => ℕ)) (h : Sound s)
    (hkeys : (entries.map Sigma.fst).Nodup)
    (hat : ∀ entry ∈ entries, s.listAt a entry.1 = some entry.2) :
    Keeps s (settleMap a entries s) ∧ (settleMap a entries s).detached = s.detached := by
  induction entries generalizing s with
  | nil => exact ⟨.refl h, rfl⟩
  | cons entry rest ih =>
    obtain ⟨hkeeps, hdetached, hothers⟩ := compactAt_keeps h (hat entry List.mem_cons_self)
    simp only [settleMap]
    split
    · exact ⟨hkeeps, hdetached⟩
    · obtain ⟨hnew, hrest⟩ := List.nodup_cons.mp hkeys
      have hat' : ∀ other ∈ rest,
          (compactAt s a entry.1 entry.2).listAt a other.1 = some other.2 := by
        intro other hother
        have hne : other.1 ≠ entry.1 :=
          fun hsame => hnew (hsame ▸ List.mem_map_of_mem hother)
        rw [hothers a other.1 (fun hboth => hne hboth.2)]
        exact hat other (List.mem_cons_of_mem _ hother)
      obtain ⟨hkeeps', hdetached'⟩ := ih hkeeps.sound hrest hat'
      exact ⟨hkeeps.trans hkeeps', hdetached'.trans hdetached⟩

theorem settleDirty_keeps (dirty : List A) (h : Sound s) :
    Keeps s (settleDirty dirty s) ∧ (settleDirty dirty s).detached = s.detached := by
  induction dirty generalizing s with
  | nil => exact ⟨.refl h, rfl⟩
  | cons address rest ih =>
    simp only [settleDirty]
    cases hmap : s.byAddress.lookup address with
    | none => exact ih h
    | some map =>
      have hat : ∀ entry ∈ map.entries, s.listAt address entry.1 = some entry.2 := by
        intro entry hentry
        have hlookup : map.lookup entry.1 = some entry.2 := AList.mem_lookup_iff.mpr hentry
        simp [State.listAt, hmap, hlookup]
      obtain ⟨hkeeps, hdetached⟩ := settleMap_keeps map.entries h map.nodupKeys hat
      obtain ⟨hkeeps', hdetached'⟩ := ih hkeeps.sound
      exact ⟨hkeeps.trans hkeeps', hdetached'.trans hdetached⟩

section Detached

/-- What is attached, and what the lists there contain, settles what a bus reaches. -/
theorem keeps_of_attached {s' : State A C} (hsound : Sound s')
    (hbyAddress : s'.byAddress = s.byAddress) (hcount : s'.count = s.count)
    (hdepth : s'.depth = s.depth) (hserial : s'.nextSerial = s.nextSerial)
    (hsame : ∀ other ∈ s'.held, s'.lists other = s.lists other) : Keeps s s' := by
  have hattached : s'.attached = s.attached := by rw [State.attached, hbyAddress, State.attached]
  have hlistOf (a' : A) (event' : ℕ) : s'.listOf a' event' = s.listOf a' event' := by
    apply listOf_congr _ hsame
    rw [State.listAt, hbyAddress, State.listAt]
  refine ⟨hsound, ?_, hcount, hdepth, hserial, ?_, ?_⟩
  · have hkept : (s'.attached.map fun other => liveIn (s'.lists other)) =
        s'.attached.map fun other => liveIn (s.lists other) :=
      List.map_congr_left fun other hother => by
        rw [hsame other (List.mem_append_left _ hother)]
    rw [live, hkept, hattached, live]
  · intro a' event'
    rw [State.regs, State.regs, hlistOf]
  · intro a' event' hshuffled
    rw [hlistOf] at hshuffled
    rw [State.regs, State.regs, hlistOf]
    exact ⟨rfl, .inl hshuffled⟩

theorem recycle_list (id : ℕ) (rest : List Detached) (h : Sound s)
    (hdetached : s.detached = .list id :: rest) :
    Keeps s { giveList s id with detached := rest } := by
  have hgiven : Given s id { giveList s id with detached := rest } := by
    refine ⟨rfl, rfl, ?_, rfl, rfl, fun hmaps => hmaps⟩
    have hcleared : s.cleared = id :: rest.flatMap Detached.ids := by
      rw [State.cleared, hdetached]
      rfl
    rw [State.held, hcleared]
    exact List.perm_middle
  exact keeps_of_attached (hgiven.sound h) rfl rfl rfl rfl (hgiven.same h)

theorem recycle_map (map : EventMap) (rest : List Detached) (h : Sound s)
    (hdetached : s.detached = .map map :: rest) :
    Keeps s { giveMap s map with detached := rest } := by
  have hcleared : s.cleared = rest.flatMap Detached.ids := by
    rw [State.cleared, hdetached]
    rfl
  have hheld : ({ giveMap s map with detached := rest } : State A C).held = s.held := by
    rw [State.held, State.held, hcleared]
    rfl
  have hmaps : ∀ other ∈ (∅ : EventMap) :: s.freeMaps, other = ∅ := by
    intro other hother
    rcases List.mem_cons.mp hother with rfl | hold
    · rfl
    · exact h.owned.maps other hold
  have howned : Owned ({ giveMap s map with detached := rest } : State A C) := by
    refine h.owned.of_perm ?_ rfl ?_ hmaps
    · rw [hheld]
      exact .refl _
    · intro other hother
      rw [hheld] at hother
      exact h.owned.empty other hother
  have hserials : allSerials ({ giveMap s map with detached := rest } : State A C) =
      allSerials s := by
    rw [allSerials, hheld]
    rfl
  refine keeps_of_attached (h.of_perm howned h.lists ?_ le_rfl) rfl rfl rfl rfl
    (fun _ _ => rfl)
  rw [hserials]

theorem settleDetached_keeps (items : List Detached) (h : Sound { s with detached := items })
    (hdetached : s.detached = []) :
    Keeps { s with detached := items } (settleDetached items s) := by
  induction items generalizing s with
  | nil =>
    have hsame : ({ s with detached := [] } : State A C) = s := by rw [← hdetached]
    rw [hsame] at h ⊢
    exact .refl h
  | cons item rest ih =>
    cases item with
    | list id =>
      have hkeeps := recycle_list id rest h rfl
      exact hkeeps.trans (ih (s := giveList s id) hkeeps.sound hdetached)
    | map map =>
      have hkeeps := recycle_map map rest h rfl
      exact hkeeps.trans (ih (s := giveMap s map) hkeeps.sound hdetached)

theorem settle_keeps (h : Sound s) (rewinds : Bool) : Keeps s (settle s rewinds) := by
  rw [settle]
  split
  · exact .refl h
  · have hstart : Keeps s { s with pending := false, dirty := [] } :=
      keeps_of_attached ⟨⟨h.owned.nodup, h.owned.below, h.owned.empty, h.owned.maps⟩, h.lists,
        h.fresh, h.below⟩ rfl rfl rfl rfl (fun _ _ => rfl)
    obtain ⟨hdirty, -⟩ := settleDirty_keeps s.dirty hstart.sound
    exact hstart.trans (hdirty.trans
      (settleDetached_keeps _ (s := { settleDirty s.dirty _ with detached := [] })
        hdirty.sound rfl))

end Detached

end Nupp.events
