import Nupp.Events.Settle

/-! Registration: the list of an address and event is found or made, and grows by one slot. -/

namespace Nupp.events

open Table

variable {A C : Type} [DecidableEq A] {s : State A C} {a : A} {event id : ℕ}

/-- The list that `listFor` finds or makes. -/
structure Provides (s : State A C) (a : A) (event id : ℕ) (s' : State A C) : Prop where
  owned : Owned s'
  at_ : ∀ a' event', s'.listAt a' event' =
    if a' = a ∧ event' = event then some id else s.listAt a' event'
  attached : (s.listAt a event = some id ∧ s'.attached.Perm s.attached) ∨
    (s.listAt a event = none ∧ id ∉ s.held ∧ s'.attached.Perm (id :: s.attached))
  rest : ∃ byAddress freeLists freeMaps nextList, s' =
    { s with
      byAddress := byAddress
      freeLists := freeLists
      freeMaps := freeMaps
      nextList := nextList }

omit [DecidableEq A] in
theorem takeMap_spec (h : Owned s) :
    (takeMap s).1 = ∅ ∧ Owned (takeMap s).2 ∧
      ∃ freeMaps, (takeMap s).2 = { s with freeMaps := freeMaps } := by
  unfold takeMap
  split
  · next map free hfree =>
    have hmaps : ∀ other ∈ free, other = ∅ :=
      fun other hother => h.maps other (hfree ▸ List.mem_cons_of_mem _ hother)
    exact ⟨h.maps map (hfree ▸ List.mem_cons_self), h.of_perm (.refl _) rfl h.empty hmaps,
      free, rfl⟩
  · exact ⟨rfl, h, s.freeMaps, rfl⟩

/-- The map of an address, which is made empty where there is none. -/
theorem mapFor_spec (h : Owned s) (a : A) :
    (mapFor s a).2.byAddress.lookup a = some (mapFor s a).1 ∧
      Owned (mapFor s a).2 ∧
      (mapFor s a).2.attached.Perm s.attached ∧
      (∀ a' event, (mapFor s a).2.listAt a' event = s.listAt a' event) ∧
      ∃ byAddress freeMaps,
        (mapFor s a).2 = { s with byAddress := byAddress, freeMaps := freeMaps } := by
  unfold mapFor
  cases hmap : s.byAddress.lookup a with
  | some map => exact ⟨hmap, h, .refl _, fun _ _ => rfl, s.byAddress, s.freeMaps, rfl⟩
  | none =>
    obtain ⟨hempty, howned, freeMaps, hstate⟩ := takeMap_spec h
    simp only [hempty]
    rw [hstate] at howned ⊢
    have hinsert := attached_insert (s := s) s.byAddress a ∅
    rw [hmap] at hinsert
    have hattached : ({ s with byAddress := s.byAddress.insert a ∅ } : State A C).attached.Perm
        s.attached := hinsert
    refine ⟨AList.lookup_insert _, ?_, hattached, ?_, _, _, rfl⟩
    · refine howned.of_perm ?_ rfl ?_ howned.maps
      · exact (hattached.append_right _).append_right _
      · intro other hother
        apply h.empty
        intro hheld
        exact hother (((hattached.append_right s.cleared).mem_iff).mpr hheld)
    · intro a' event
      refine (listAt_insert (s := s) s.byAddress a a' ∅ event).trans ?_
      by_cases ha : a' = a
      · subst ha
        simp [State.listAt, hmap]
      · rw [if_neg ha]

omit [DecidableEq A] in
theorem takeList_spec (h : Owned s) :
    (takeList s).1 ∉ s.held ∧
      ((takeList s).1 :: (s.held ++ (takeList s).2.freeLists)).Nodup ∧
      (∀ other ∈ (takeList s).1 :: (s.held ++ (takeList s).2.freeLists),
        other < (takeList s).2.nextList) ∧
      ∃ freeLists nextList,
        (takeList s).2 = { s with freeLists := freeLists, nextList := nextList } := by
  unfold takeList
  split
  · next id free hfree =>
    have hnodup : (s.held ++ id :: free).Nodup := hfree ▸ h.nodup
    have hbelow : ∀ other ∈ s.held ++ id :: free, other < s.nextList := hfree ▸ h.below
    have hsplit := List.perm_middle.nodup_iff.mp hnodup
    refine ⟨fun hheld => ?_, hsplit, ?_, free, s.nextList, rfl⟩
    · exact (List.nodup_cons.mp hsplit).1 (List.mem_append_left _ hheld)
    · exact fun other hother => hbelow other (List.perm_middle.mem_iff.mpr hother)
  · next hfree =>
    have hfresh : s.nextList ∉ s.held ++ s.freeLists :=
      fun hmem => absurd (h.below _ hmem) (Nat.lt_irrefl _)
    have hlists : Function.update s.lists s.nextList {} = s.lists := by
      have hempty := h.empty s.nextList fun hmem => hfresh (List.mem_append_left _ hmem)
      rw [← hempty]
      exact Function.update_eq_self ..
    refine ⟨fun hheld => hfresh (List.mem_append_left _ hheld),
      List.nodup_cons.mpr ⟨hfresh, h.nodup⟩, ?_, s.freeLists, s.nextList + 1, ?_⟩
    · intro other hother
      rcases List.mem_cons.mp hother with rfl | hold
      · exact Nat.lt_succ_self _
      · exact (h.below other hold).trans (Nat.lt_succ_self _)
    · simp only [State.setList, hlists]

theorem listFor_spec (h : Owned s) (a : A) (event : ℕ) :
    Provides s a event (listFor s a event).1 (listFor s a event).2 := by
  obtain ⟨hlookup, howned, hperm, hat, byAddress, freeMaps, hstate⟩ := mapFor_spec h a
  have hheld : (mapFor s a).2.held.Perm s.held := by
    rw [State.held, State.held]
    have hcleared : (mapFor s a).2.cleared = s.cleared := by rw [hstate]; rfl
    rw [hcleared]
    exact hperm.append_right _
  unfold listFor
  cases hevent : (mapFor s a).1.lookup event with
  | some id =>
    simp only [hevent]
    have hfound : (mapFor s a).2.listAt a event = some id := by
      simp [State.listAt, hlookup, hevent]
    refine ⟨howned, ?_, .inl ⟨(hat a event).symm.trans hfound, hperm⟩, byAddress, s.freeLists,
      freeMaps, s.nextList, hstate⟩
    intro a' event'
    by_cases hsame : a' = a ∧ event' = event
    · rw [if_pos hsame, hsame.1, hsame.2, hfound]
    · rw [if_neg hsame, hat]
  | none =>
    simp only [hevent]
    obtain ⟨hnew, hnodup, hbelow, freeLists, nextList, htaken⟩ := takeList_spec howned
    have hnone : s.listAt a event = none := by
      rw [← hat]
      simp [State.listAt, hlookup, hevent]
    generalize (takeList (mapFor s a).2).1 = id at *
    rw [htaken] at hnodup hbelow ⊢
    have hinsert := attached_insert (s := (mapFor s a).2) (mapFor s a).2.byAddress a
      ((mapFor s a).1.insert event id)
    rw [hlookup, Option.getD_some, mapLists_insert hevent, List.cons_append] at hinsert
    have hattached := (List.perm_append_left_iff _).mp (hinsert.trans List.perm_middle.symm)
    have hheld' : ({ (mapFor s a).2 with
        byAddress := (mapFor s a).2.byAddress.insert a ((mapFor s a).1.insert event id)
        freeLists := freeLists
        nextList := nextList } : State A C).held.Perm (id :: (mapFor s a).2.held) :=
      hattached.append_right _
    refine ⟨⟨?_, ?_, ?_, howned.maps⟩, ?_, .inr ⟨hnone, ?_, ?_⟩, ?_⟩
    · exact (hheld'.append_right _).nodup_iff.mpr hnodup
    · exact fun other hother => hbelow other ((hheld'.append_right _).mem_iff.mp hother)
    · intro other hother
      apply howned.empty
      exact fun hold => hother (hheld'.mem_iff.mpr (List.mem_cons_of_mem _ hold))
    · intro a' event'
      refine (listAt_insert (s := (mapFor s a).2) _ a a' _ event').trans ?_
      by_cases ha : a' = a
      · subst ha
        have hold : (mapFor s a').1.lookup event' = s.listAt a' event' := by
          rw [← hat]
          simp [State.listAt, hlookup]
        rw [if_pos rfl, lookup_insert', hold]
        simp
      · rw [if_neg ha, if_neg (fun hboth => ha hboth.1)]
        exact hat a' event'
    · exact fun hold => hnew (hheld.mem_iff.mpr hold)
    · exact hattached.trans (hperm.cons id)
    · rw [hstate]
      exact ⟨_, _, _, _, rfl⟩

/-- A registration that was made: the list at its address and event has one more slot. -/
structure Registered (s : State A C) (a : A) (event : ℕ) (slot : Slot C) (s' : State A C) :
    Prop where
  sound : Sound s'
  live : live s' = live s + 1
  count : s'.count = s.count + 1
  depth : s'.depth = s.depth
  serial : slot.serial = s.nextSerial ∧ s'.nextSerial = s.nextSerial + 1
  name : ∀ other ∈ s.regs a event, slot.name.isSome → other.name ≠ slot.name
  held : ∀ id ∈ s.held, id ∈ s'.held
  list : ∃ id, (s.listAt a event = some id ∨ id ∉ s.held) ∧
    (∀ a' event', s'.listAt a' event' =
      if a' = a ∧ event' = event then some id else s.listAt a' event') ∧
    s'.lists = Function.update s.lists id (s'.listOf a event) ∧
    (s'.listOf a event).slots = (s.listOf a event).slots ++ [slot] ∧
    (s'.listOf a event).shuffled = (s.listOf a event).shuffled

omit [DecidableEq A] in
theorem nameTaken_none {list : ObserverList C} {name : Option String}
    (h : nameTaken list name = none) :
    ∀ slot ∈ lives list.slots, name.isSome → slot.name ≠ name := by
  intro slot hslot hsome hsame
  obtain ⟨name, rfl⟩ := Option.isSome_iff_exists.mp hsome
  obtain ⟨hmem, hlive⟩ := List.mem_filter.mp hslot
  have hany : ¬(list.slots.any fun slot => slot.live && slot.name == some name) = true := by
    simpa [nameTaken] using h
  exact hany (List.any_eq_true.mpr ⟨slot, hmem, by simp [hlive, hsame]⟩)

omit [DecidableEq A] in
theorem nameTaken_some {list : ObserverList C} {name : Option String} {taken : String}
    (h : nameTaken list name = some taken) :
    name = some taken ∧ ∃ slot ∈ lives list.slots, slot.name = some taken := by
  obtain ⟨hname, hany⟩ := Option.filter_eq_some_iff.mp h
  obtain ⟨slot, hslot, hboth⟩ := List.any_eq_true.mp hany
  rw [Bool.and_eq_true, beq_iff_eq] at hboth
  exact ⟨hname, slot, List.mem_filter.mpr ⟨hslot, hboth.1⟩, hboth.2⟩

omit [DecidableEq A] in
theorem append_ok {list : ObserverList C} (slot : Slot C) (h : ListOk list)
    (hlive : slot.live) (hname : ∀ other ∈ lives list.slots, slot.name.isSome →
      other.name ≠ slot.name) :
    ListOk { list with
      slots := list.slots ++ [slot]
      once := if slot.once then list.once + 1 else list.once } where
  once := by
    have honce := h.once
    simp only [List.countP_append, List.countP_singleton]
    split <;> simp [honce]
  live := by
    intro other hother
    rcases List.mem_append.mp hother with hold | hnew
    · exact h.live other hold
    · rw [List.mem_singleton.mp hnew]
      exact fun _ => hlive
  names := by
    have hlives : lives (list.slots ++ [slot]) = lives list.slots ++ [slot] := by
      simp [lives, hlive]
    simp only [hlives, List.filterMap_append]
    refine List.nodup_append.mpr ⟨h.names, ?_, ?_⟩
    · cases hsome : slot.name <;> simp [hsome]
    · intro name hname' other hother
      obtain ⟨old, hold, hsame⟩ := List.mem_filterMap.mp hname'
      obtain ⟨new, hnew, hother⟩ := List.mem_filterMap.mp hother
      rw [List.mem_singleton.mp hnew] at hother
      rintro rfl
      exact hname old hold (by rw [hother]; rfl) (hsame.trans hother.symm)

theorem listFor_of_some (h : s.listAt a event = some id) : listFor s a event = (id, s) := by
  obtain ⟨map, hmap, hevent⟩ := Option.bind_eq_some_iff.mp h
  simp [listFor, mapFor, hmap, hevent]

/-- Finding or making a list changes nothing that an emission reaches. -/
theorem Provides.same {s' : State A C} (hlist : Provides s a event id s') (h : Sound s) :
    s'.lists = s.lists ∧ s.lists id = s.listOf a event ∧ id ∈ s'.attached ∧
      live s' = live s ∧ (allSerials s').Perm (allSerials s) ∧ ∀ other ∈ s.held, other ∈ s'.held := by
  obtain ⟨byAddress, freeLists, freeMaps, nextList, hrest⟩ := hlist.rest
  have hlists : s'.lists = s.lists := by rw [hrest]
  have hcleared : s'.cleared = s.cleared := by
    rw [hrest]
    rfl
  have hfound : s'.listAt a event = some id := by
    rw [hlist.at_, if_pos ⟨rfl, rfl⟩]
  have hattached : id ∈ s'.attached := mem_attached.mpr ⟨a, event, hfound⟩
  refine ⟨hlists, ?_, hattached, ?_⟩
  · rcases hlist.attached with ⟨hat, -⟩ | ⟨hat, hnew, -⟩
    · rw [listOf_of_some hat]
    · rw [listOf_of_none hat, h.owned.empty id hnew]
  · rw [live, live, allSerials, allSerials, State.held, State.held, hcleared, hlists]
    rcases hlist.attached with ⟨-, hperm⟩ | ⟨-, hnew, hperm⟩
    · have hheld := hperm.append_right s.cleared
      exact ⟨(hperm.map _).sum_eq, hheld.flatMap_right _, fun other => hheld.mem_iff.mpr⟩
    · have hheld : (s'.attached ++ s.cleared).Perm (id :: s.held) := hperm.append_right s.cleared
      have hempty := h.owned.empty id hnew
      refine ⟨?_, ?_, fun other hother => hheld.mem_iff.mpr (List.mem_cons_of_mem _ hother)⟩
      · have hsum := (hperm.map fun other => liveIn (s.lists other)).sum_eq
        rw [hsum, List.map_cons, List.sum_cons, hempty]
        exact Nat.zero_add _
      · have hall := hheld.flatMap_right fun other => serials (s.lists other).slots
        rw [List.flatMap_cons, hempty] at hall
        exact hall

theorem register_spec (h : Sound s) (a : A) (event : ℕ) (callback : C) (name : Option String)
    (once : Bool) :
    match register s a event callback name once with
    | (.ok _, s') => Registered s a event ⟨name, some callback, once, s.nextSerial⟩ s'
    | (.error _, s') => s' = s ∧ ∃ other ∈ s.regs a event, other.name.isSome ∧
        other.name = name := by
  have hlist := listFor_spec h.owned a event
  obtain ⟨hlists, hcontent, hattached, hlive, hserials, hheld⟩ := hlist.same h
  obtain ⟨byAddress, freeLists, freeMaps, nextList, hrest⟩ := hlist.rest
  have hfound : (listFor s a event).2.listAt a event = some (listFor s a event).1 := by
    rw [hlist.at_, if_pos ⟨rfl, rfl⟩]
  have hcount : (listFor s a event).2.count = s.count := by rw [hrest]
  have hserial : (listFor s a event).2.nextSerial = s.nextSerial := by rw [hrest]
  have hdepth : (listFor s a event).2.depth = s.depth := by rw [hrest]
  simp only [register, hlists, hcontent]
  cases htaken : nameTaken (s.listOf a event) name with
  | some taken =>
    obtain ⟨hname, other, hother, hsame⟩ := nameTaken_some htaken
    refine ⟨?_, other, hother, by rw [hsame]; rfl, hsame.trans hname.symm⟩
    cases hat : s.listAt a event with
    | none =>
      rw [listOf_of_none hat] at hother
      simp [lives] at hother
    | some id => rw [listFor_of_some hat]
  | none =>
    have hnames := nameTaken_none htaken
    generalize hid : (listFor s a event).1 = id at *
    generalize (listFor s a event).2 = s₁ at *
    simp only [hcount, hserial]
    have hok : ListOk (s.listOf a event) := hcontent ▸ h.lists id
    have hnew := append_ok ⟨name, some callback, once, s.nextSerial⟩ hok rfl hnames
    generalize hlist' : ({ s.listOf a event with
      slots := (s.listOf a event).slots ++ [⟨name, some callback, once, s.nextSerial⟩]
      once := if once = true then (s.listOf a event).once + 1 else (s.listOf a event).once } :
        ObserverList C) = list at *
    have hslots : list.slots = (s.listOf a event).slots ++
        [⟨name, some callback, once, s.nextSerial⟩] := by
      rw [← hlist']
    have hgrown : liveIn list = liveIn (s₁.lists id) + 1 := by
      rw [liveIn_eq, liveIn_eq, hslots, hlists, hcontent, lives_append, List.length_append]
      rfl
    have hall : (allSerials (s₁.setList id list)).Perm (s.nextSerial :: allSerials s) := by
      obtain ⟨others, hbefore, hafter⟩ := flatMap_update
        (fun list : ObserverList C => serials list.slots) s₁.lists list hlist.owned.held_nodup
        (List.mem_append_left _ hattached)
      have hlast : serials list.slots = serials (s₁.lists id).slots ++ [s.nextSerial] := by
        rw [serials_eq, serials_eq, hslots, hlists, hcontent, lives_append, List.map_append]
        rfl
      rw [hlast, List.append_assoc] at hafter
      exact hafter.trans (List.perm_middle.trans ((hbefore.symm.trans hserials).cons _))
    have hlistOf : (s₁.setList id list).listOf a event = list := by
      rw [listOf_setList, if_pos hfound]
    refine ⟨⟨?_, ?_, ?_, ?_⟩, ?_, rfl, hdepth, ⟨rfl, rfl⟩, hnames, hheld, id, ?_, ?_, ?_, ?_, ?_⟩
    · have howned := setList_owned list hlist.owned (List.mem_append_left _ hattached)
      exact howned.of_perm (.refl _) rfl howned.empty howned.maps
    · exact setList_lists (hlists ▸ h.lists) hnew
    · refine hall.nodup_iff.mpr (List.nodup_cons.mpr ⟨fun hmem => ?_, h.fresh⟩)
      exact absurd (h.below _ hmem) (Nat.lt_irrefl _)
    · intro serial hmem
      rcases List.mem_cons.mp (hall.mem_iff.mp hmem) with rfl | hold
      · exact Nat.lt_succ_self _
      · exact (h.below serial hold).trans (Nat.lt_succ_self _)
    · have hsum := setList_live list hlist.owned hattached
      have hsame : live (s₁.setList id list) = live s + 1 := by omega
      exact hsame
    · rcases hlist.attached with ⟨hat, -⟩ | ⟨-, hnot, -⟩
      · exact .inl hat
      · exact .inr hnot
    · exact hlist.at_
    · have hsame : (s₁.setList id list).lists =
          Function.update s.lists id ((s₁.setList id list).listOf a event) := by
        rw [hlistOf, ← hlists]
        rfl
      exact hsame
    · exact (congrArg ObserverList.slots hlistOf).trans hslots
    · refine (congrArg ObserverList.shuffled hlistOf).trans ?_
      rw [← hlist']

end Nupp.events
