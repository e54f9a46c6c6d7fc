import Mathlib.Algebra.BigOperators.Ring.Finset
import Nupp.Events.Register

/-! Removal: `stop` strikes the registrations that match, and `clear` detaches every list of
an address. -/

namespace Nupp.events

open Table

variable {A C : Type} [DecidableEq A] {s : State A C} {a : A} {event id : ℕ}

/-- The same lists in the same hands with the same contents. -/
structure Alike (s s' : State A C) : Prop where
  byAddress : s'.byAddress = s.byAddress
  cleared : s'.cleared.Perm s.cleared
  lists : s'.lists = s.lists

omit [DecidableEq A] in
theorem Alike.held {s' : State A C} (h : Alike s s') : s'.held.Perm s.held := by
  rw [State.held, State.held, State.attached, h.byAddress]
  exact h.cleared.append_left _

theorem Alike.listAt {s' : State A C} (h : Alike s s') (a : A) (event : ℕ) :
    s'.listAt a event = s.listAt a event := by
  rw [State.listAt, h.byAddress, State.listAt]

theorem Alike.keeps {s' : State A C} (h : Alike s s') (hsound : Sound s)
    (hfree : s'.freeLists = s.freeLists) (hnext : s'.nextList = s.nextList)
    (hmaps : s'.freeMaps = s.freeMaps) (hcount : s'.count = s.count)
    (hdepth : s'.depth = s.depth) (hserial : s'.nextSerial = s.nextSerial) : Keeps s s' := by
  refine keeps_of_attached (hsound.of_perm ?_ ?_ ?_ hserial.ge) h.byAddress hcount hdepth
    hserial (fun _ _ => by rw [h.lists])
  · refine hsound.owned.of_perm ?_ hnext ?_ ?_
    · rw [hfree]
      exact h.held.append_right _
    · intro other hother
      rw [h.lists]
      exact hsound.owned.empty other fun hold => hother (h.held.mem_iff.mpr hold)
    · rw [hmaps]
      exact hsound.owned.maps
  · rw [h.lists]
    exact hsound.lists
  · rw [allSerials, allSerials, h.lists]
    exact (h.held.flatMap_right _).subperm

theorem touched_keeps (a : A) (event id : ℕ) (h : Sound s)
    (hat : s.listAt a event = some id ∨ 0 < s.depth) :
    Keeps s (touched s a event id) ∧ (0 < s.depth → Alike s (touched s a event id)) := by
  rw [touched]
  split
  · have halike : Alike s
        { s with
          dirty := if a ∈ s.dirty then s.dirty else a :: s.dirty
          pending := true } := ⟨rfl, .refl _, rfl⟩
    exact ⟨halike.keeps h rfl rfl rfl rfl rfl rfl, fun _ => halike⟩
  · next hdepth =>
    rcases hat with hat | hpos
    · exact ⟨(compactAt_keeps h hat).1, fun hpos => absurd hpos hdepth⟩
    · exact absurd hpos hdepth

/-- A registration or more that `stop` removed, before the list is compacted. -/
structure Struck [DecidableEq C] (s : State A C) (a : A) (event : ℕ) (key : Key C) (id : ℕ)
    (s' : State A C) : Prop where
  sound : Sound s'
  live : (live s' : ℤ) - s'.count = live s - s.count
  depth : s'.depth = s.depth
  serial : s'.nextSerial = s.nextSerial
  byAddress : s'.byAddress = s.byAddress
  detached : s'.detached = s.detached
  lists : s'.lists = Function.update s.lists id (s'.lists id)
  slots : (s'.lists id).slots = (s.lists id).slots.map (strike (Slot.matches key))
  shuffled : (s'.lists id).shuffled = (s.lists id).shuffled

theorem stop_spec [DecidableEq C] (h : Sound s) (a : A) (event : ℕ) (key : Key C) :
    ((stop s a event key).2 = s ∧
        (s.count = 0 ∨ ∀ slot ∈ s.regs a event, slot.matches key = false)) ∨
      ∃ id s₁, s.listAt a event = some id ∧ Struck s a event key id s₁ ∧
        (stop s a event key).2 = touched s₁ a event id := by
  unfold stop
  by_cases hcount : s.count = 0
  · exact .inl ⟨by rw [if_pos hcount], .inl hcount⟩
  rw [if_neg hcount]
  cases hat : s.listAt a event with
  | none =>
    refine .inl ⟨rfl, .inr fun slot hslot => ?_⟩
    rw [State.regs, listOf_of_none hat] at hslot
    simp [lives] at hslot
  | some id =>
    have hattached : id ∈ s.attached := mem_attached.mpr ⟨a, event, hat⟩
    have hremoved := stopLoop_removed key (s.lists id).slots
    have hslots := stopLoop_slots key (h.lists id).names
    have hok := stopLoop_ok key (h.lists id)
    by_cases hnone : (stopLoop key (s.lists id).slots).2.1 = 0
    · refine .inl ⟨by simp only [hnone, if_true], .inr ?_⟩
      rw [hnone, hslots, lives_strike, Nat.add_zero] at hremoved
      rw [State.regs, listOf_of_some hat]
      intro slot hslot
      have hkept := List.length_filter_eq_length_iff.mp hremoved slot hslot
      simpa using hkept
    · refine .inr ⟨id, _, rfl, ?_, by simp only [if_neg hnone]; rfl⟩
      generalize hlist : ({ s.lists id with
        slots := (stopLoop key (s.lists id).slots).1
        once := (s.lists id).once - (stopLoop key (s.lists id).slots).2.2
        holes := (s.lists id).holes + (stopLoop key (s.lists id).slots).2.1 } :
          ObserverList C) = list at *
      have hlistSlots : list.slots = (s.lists id).slots.map (strike (Slot.matches key)) := by
        rw [← hlist]
        exact hslots
      have hserials : (serials list.slots).Sublist (serials (s.lists id).slots) := by
        rw [serials_eq, serials_eq, hlistSlots, lives_strike]
        exact List.filter_sublist.map _
      have hsound := setList_sound h (List.mem_append_left _ hattached) hok hserials.subperm
      have hlive := setList_live list h.owned hattached
      have hsum : liveIn list + (stopLoop key (s.lists id).slots).2.1 = liveIn (s.lists id) := by
        rw [liveIn_eq, liveIn_eq, hlistSlots, ← hslots]
        exact hremoved
      have hself : (s.setList id list).lists id = list := setList_self
      refine ⟨⟨⟨hsound.owned.nodup, hsound.owned.below, hsound.owned.empty, hsound.owned.maps⟩,
        hsound.lists, hsound.fresh, hsound.below⟩, ?_, rfl, rfl, rfl, rfl, ?_, ?_, ?_⟩
      · have hcounted : (live (s.setList id list) : ℤ) -
            (s.count - (stopLoop key (s.lists id).slots).2.1) = live s - s.count := by omega
        exact hcounted
      · show (s.setList id list).lists = Function.update s.lists id ((s.setList id list).lists id)
        rw [hself]
        rfl
      · exact (congrArg ObserverList.slots hself).trans hlistSlots
      · refine (congrArg ObserverList.shuffled hself).trans ?_
        rw [← hlist]

section Clear

/-- The lists of a map, detached. -/
def detachedLists (entries : List (Sigma fun _ : ℕ => ℕ)) : List Detached :=
  entries.map fun entry => .list entry.2

def liveLists (s : State A C) (entries : List (Sigma fun _ : ℕ => ℕ)) : ℤ :=
  (entries.map fun entry => (liveIn (s.lists entry.2) : ℤ)).sum

theorem detach_map_keeps (h : Sound s) (map : EventMap) :
    Keeps s (detach s (.map map)) ∧ (0 < s.depth → Alike s (detach s (.map map))) := by
  rw [detach]
  split
  · have halike : Alike s { s with detached := .map map :: s.detached, pending := true } :=
      ⟨rfl, .refl _, rfl⟩
    exact ⟨halike.keeps h rfl rfl rfl rfl rfl rfl, fun _ => halike⟩
  · next hdepth =>
    have halike : Alike s { s with detached := .map map :: s.detached } := ⟨rfl, .refl _, rfl⟩
    have hheld := halike.keeps h rfl rfl rfl rfl rfl rfl
    exact ⟨hheld.trans (recycle_map _ _ hheld.sound rfl), fun hpos => absurd hpos hdepth⟩

omit [DecidableEq A] in
theorem Sound.recount (h : Sound s) (count : ℤ) : Sound { s with count := count } :=
  ⟨⟨h.owned.nodup, h.owned.below, h.owned.empty, h.owned.maps⟩, h.lists, h.fresh, h.below⟩

omit [DecidableEq A] in
theorem Sound.redepth (h : Sound s) (depth : ℤ) : Sound { s with depth := depth } :=
  ⟨⟨h.owned.nodup, h.owned.below, h.owned.empty, h.owned.maps⟩, h.lists, h.fresh, h.below⟩

theorem Keeps.recount {s' : State A C} (h : Keeps s s') (count : ℤ) :
    Keeps { s with count := count } { s' with count := count } :=
  ⟨h.sound.recount count, h.live, rfl, h.depth, h.serial, h.regs, h.order⟩

theorem detach_list_keeps (rest : List Detached)
    (h : Sound { s with detached := .list id :: (rest ++ s.detached) }) :
    Keeps { s with detached := .list id :: (rest ++ s.detached) }
        { detach s (.list id) with detached := rest ++ (detach s (.list id)).detached } ∧
      (∀ other, .list other ∈ rest → (detach s (.list id)).lists other = s.lists other) ∧
      (0 < s.depth → Alike { s with detached := .list id :: (rest ++ s.detached) }
        { detach s (.list id) with detached := rest ++ (detach s (.list id)).detached }) := by
  rw [detach]
  split
  · have halike : Alike { s with detached := .list id :: (rest ++ s.detached) }
        { s with detached := rest ++ (.list id :: s.detached), pending := true } :=
      ⟨rfl, (List.perm_middle.flatMap_right _), rfl⟩
    exact ⟨halike.keeps h rfl rfl rfl rfl rfl rfl, fun _ _ => rfl, fun _ => halike⟩
  · next hdepth =>
    refine ⟨recycle_list _ _ h rfl, ?_, fun hpos => absurd hpos hdepth⟩
    intro other hother
    have hmem : other ∈ rest.flatMap Detached.ids ++ s.detached.flatMap Detached.ids :=
      List.mem_append_left _ (List.mem_flatMap.mpr ⟨_, hother, List.mem_singleton.mpr rfl⟩)
    have hcleared := (List.nodup_append.mp h.owned.held_nodup).2.1
    have hids : ({ s with detached := .list id :: (rest ++ s.detached) } : State A C).cleared =
        id :: (rest.flatMap Detached.ids ++ s.detached.flatMap Detached.ids) := by
      simp [State.cleared, Detached.ids]
    rw [hids] at hcleared
    have hne : other ≠ id := by
      rintro rfl
      exact (List.nodup_cons.mp hcleared).1 hmem
    exact setList_of_ne hne

/-- The loop of `clear` takes the registrations it counts off, and detaches or recycles the
lists. -/
theorem clearLists_keeps (entries : List (Sigma fun _ : ℕ => ℕ))
    (h : Sound { s with detached := detachedLists entries ++ s.detached }) :
    Keeps { s with detached := detachedLists entries ++ s.detached, count := 0 }
        { clearLists entries s with count := 0 } ∧
      (clearLists entries s).count = s.count - liveLists s entries ∧
      (0 < s.depth → Alike { s with detached := detachedLists entries ++ s.detached }
        (clearLists entries s)) := by
  induction entries generalizing s with
  | nil => exact ⟨.refl (h.recount 0), (Int.sub_zero _).symm, fun _ => ⟨rfl, .refl _, rfl⟩⟩
  | cons entry rest ih =>
    obtain ⟨event, id⟩ := entry
    simp only [clearLists]
    generalize hs₁ : ({ s with count := s.count - liveIn (s.lists id) } : State A C) = s₁
    have hsound : Sound { s₁ with
        detached := .list id :: (detachedLists rest ++ s₁.detached) } := by
      rw [← hs₁]
      exact h.recount _
    have hlists₁ : s₁.lists = s.lists := by rw [← hs₁]
    have hcount₁ : s₁.count = s.count - liveIn (s.lists id) := by rw [← hs₁]
    have hdepth₁ : s₁.depth = s.depth := by rw [← hs₁]
    obtain ⟨hkeeps, hothers, halike⟩ := detach_list_keeps (detachedLists rest) hsound
    obtain ⟨hkeeps', hcount', halike'⟩ := ih hkeeps.sound
    have hstart : Keeps { s with
          detached := detachedLists (⟨event, id⟩ :: rest) ++ s.detached, count := 0 }
        { detach s₁ (.list id) with
          detached := detachedLists rest ++ (detach s₁ (.list id)).detached, count := 0 } := by
      have hzero := hkeeps.recount 0
      rw [← hs₁] at hzero ⊢
      exact hzero
    have hsum : liveLists (detach s₁ (.list id)) rest = liveLists s rest := by
      refine congrArg List.sum (List.map_congr_left fun other hother => ?_)
      rw [hothers other.2 (List.mem_map_of_mem hother), hlists₁]
    refine ⟨hstart.trans hkeeps', ?_, fun hpos => ?_⟩
    · have hcount : (detach s₁ (.list id)).count = s₁.count := hkeeps.count
      have hparts : liveLists s (⟨event, id⟩ :: rest) =
          liveIn (s.lists id) + liveLists s rest := rfl
      omega
    · have hdepth : (detach s₁ (.list id)).depth = s.depth := hkeeps.depth.trans hdepth₁
      have hfirst := halike (hdepth₁.symm ▸ hpos)
      have hsecond := halike' (hdepth.symm ▸ hpos)
      refine ⟨hsecond.byAddress.trans (hfirst.byAddress.trans (by rw [← hs₁])),
        hsecond.cleared.trans (hfirst.cleared.trans ?_),
        hsecond.lists.trans (hfirst.lists.trans hlists₁)⟩
      rw [← hs₁]
      exact .refl _

/-- The registrations at an address and event, in order unless a compaction shuffled them. -/
def Ordered (s : State A C) (a : A) (event : ℕ) (slots : List (Slot C)) : Prop :=
  (s.regs a event).Perm slots ∧ ((s.listOf a event).shuffled = false → s.regs a event = slots)

theorem Keeps.ordered {s' : State A C} (h : Keeps s s') {a : A} {event : ℕ}
    {slots : List (Slot C)} (hslots : Ordered s a event slots) : Ordered s' a event slots := by
  refine ⟨(h.regs a event).trans hslots.1, fun hshuffled => ?_⟩
  obtain ⟨hregs, hbefore | hempty⟩ := h.order a event hshuffled
  · exact hregs.trans (hslots.2 hbefore)
  · have hnone := hslots.1
    rw [hempty] at hnone
    rw [hregs, hempty, hnone.symm.eq_nil]

theorem mapLists_eq (map : EventMap) : mapLists map = map.entries.map Sigma.snd :=
  List.map_eq_flatMap.symm

/-- Every registration at some addresses is removed, and the others are kept. -/
structure Cleared (s : State A C) (addresses : List A) (s' : State A C) : Prop where
  sound : Sound s'
  missed : (live s' : ℤ) - s'.count = live s - s.count
  depth : s'.depth = s.depth
  serial : s'.nextSerial = s.nextSerial
  ordered : ∀ a event slots, Ordered s a event slots →
    Ordered s' a event (if a ∈ addresses then [] else slots)
  held : 0 < s.depth → (∀ id ∈ s.held, id ∈ s'.held) ∧ s'.lists = s.lists ∧
    ∀ a event id, s'.listAt a event = some id → s.listAt a event = some id ∧ a ∉ addresses

theorem Cleared.refl (h : Sound s) : Cleared s [] s where
  sound := h
  missed := rfl
  depth := rfl
  serial := rfl
  ordered := by simp
  held := by simp

theorem Cleared.trans {s' s'' : State A C} {xs ys : List A} (h : Cleared s xs s')
    (h' : Cleared s' ys s'') : Cleared s (xs ++ ys) s'' where
  sound := h'.sound
  missed := h'.missed.trans h.missed
  depth := h'.depth.trans h.depth
  serial := h'.serial.trans h.serial
  ordered := by
    intro a event slots hslots
    have hboth := h'.ordered a event _ (h.ordered a event slots hslots)
    by_cases hx : a ∈ xs <;> by_cases hy : a ∈ ys <;> simpa [hx, hy] using hboth
  held := by
    intro hpos
    obtain ⟨hheld, hlists, hat⟩ := h.held hpos
    obtain ⟨hheld', hlists', hat'⟩ := h'.held (h.depth.symm ▸ hpos)
    refine ⟨fun id hid => hheld' id (hheld id hid), hlists'.trans hlists, ?_⟩
    intro a event id hid
    obtain ⟨hmiddle, hy⟩ := hat' a event id hid
    obtain ⟨hstart, hx⟩ := hat a event id hmiddle
    exact ⟨hstart, by simp [hx, hy]⟩

theorem Cleared.keeps {s' s'' : State A C} {addresses : List A} (h : Cleared s addresses s')
    (h' : Keeps s' s'') (halike : 0 < s'.depth → Alike s' s'') : Cleared s addresses s'' where
  sound := h'.sound
  missed := by
    rw [h'.live, h'.count]
    exact h.missed
  depth := h'.depth.trans h.depth
  serial := h'.serial.trans h.serial
  ordered := fun a event slots hslots => h'.ordered (h.ordered a event slots hslots)
  held := by
    intro hpos
    obtain ⟨hheld, hlists, hat⟩ := h.held hpos
    have hsame := halike (h.depth.symm ▸ hpos)
    refine ⟨fun id hid => hsame.held.mem_iff.mpr (hheld id hid), hsame.lists.trans hlists, ?_⟩
    intro a event id hid
    rw [hsame.listAt] at hid
    exact hat a event id hid

theorem detachedLists_ids (map : EventMap) :
    (detachedLists map.entries).flatMap Detached.ids = mapLists map := by
  rw [mapLists_eq, detachedLists, List.flatMap_map, List.map_eq_flatMap]
  rfl

omit [DecidableEq A] in
theorem liveLists_eq (map : EventMap) :
    liveLists s map.entries = ((mapLists map).map fun id => liveIn (s.lists id)).sum := by
  rw [mapLists_eq, liveLists, List.map_map, Nat.cast_list_sum, List.map_map]
  rfl

/-- The lists of an address in transit, once they are counted off. -/
theorem erase_cleared (h : Sound s) {map : EventMap} (hmap : s.byAddress.lookup a = some map) :
    Cleared s [a]
      { s with
        byAddress := s.byAddress.erase a
        detached := detachedLists map.entries ++ s.detached
        count := s.count - liveLists s map.entries } := by
  generalize hv : ({ s with
    byAddress := s.byAddress.erase a
    detached := detachedLists map.entries ++ s.detached
    count := s.count - liveLists s map.entries } : State A C) = v
  have hattached : s.attached.Perm (mapLists map ++ v.attached) := by
    have herase := attached_erase (s := s) s.byAddress a
    rw [hmap] at herase
    rw [← hv]
    exact herase.symm
  have hcleared : v.cleared = mapLists map ++ s.cleared := by
    rw [← hv, State.cleared, List.flatMap_append, detachedLists_ids, State.cleared]
  have hheld : v.held.Perm s.held := by
    rw [State.held, State.held, hcleared]
    have hsplit := hattached.append_right s.cleared
    rw [List.append_assoc] at hsplit
    exact (List.perm_append_comm_assoc _ _ _).trans hsplit.symm
  have hlists : v.lists = s.lists := by rw [← hv]
  have hat (a' : A) (event : ℕ) :
      v.listAt a' event = if a' = a then none else s.listAt a' event := by
    rw [← hv]
    exact listAt_erase (s := s) s.byAddress a a' event
  have hlistOf (a' : A) (event : ℕ) (hne : a' ≠ a) : v.listOf a' event = s.listOf a' event := by
    have hsame := hat a' event
    rw [if_neg hne] at hsame
    exact listOf_congr hsame fun _ _ => by rw [hlists]
  have hsound : Sound v := by
    refine h.of_perm ?_ ?_ ?_ (by rw [← hv])
    · refine h.owned.of_perm ?_ (by rw [← hv]) ?_ ?_
      · rw [show v.freeLists = s.freeLists by rw [← hv]]
        exact hheld.append_right _
      · intro other hother
        rw [hlists]
        exact h.owned.empty other fun hold => hother (hheld.mem_iff.mpr hold)
      · rw [show v.freeMaps = s.freeMaps by rw [← hv]]
        exact h.owned.maps
    · rw [hlists]
      exact h.lists
    · rw [allSerials, allSerials, hlists]
      exact (hheld.flatMap_right _).subperm
  refine ⟨hsound, ?_, by rw [← hv], by rw [← hv], ?_, fun _ => ⟨?_, hlists, ?_⟩⟩
  · have hsum := (hattached.map fun id => liveIn (s.lists id)).sum_eq
    have hcount : v.count = s.count - liveLists s map.entries := by rw [← hv]
    have hlive : live v = (v.attached.map fun id => liveIn (s.lists id)).sum := by
      rw [live, hlists]
    have hstart : live s = (s.attached.map fun id => liveIn (s.lists id)).sum := rfl
    rw [List.map_append, List.sum_append] at hsum
    rw [hcount, liveLists_eq, hlive, hstart, hsum]
    push_cast
    ring
  · intro a' event slots hslots
    by_cases hne : a' = a
    · have hnone := hat a' event
      rw [if_pos hne] at hnone
      rw [if_pos (List.mem_singleton.mpr hne), Ordered, State.regs, listOf_of_none hnone]
      exact ⟨.refl _, fun _ => rfl⟩
    · rw [if_neg (fun hmem => hne (List.mem_singleton.mp hmem))]
      rw [Ordered, State.regs, hlistOf a' event hne]
      exact hslots
  · exact fun id hid => hheld.mem_iff.mpr hid
  · intro a' event id hid
    rw [hat] at hid
    split at hid
    · exact absurd hid (by simp)
    · next hne => exact ⟨hid, by simpa using hne⟩

theorem clear_spec (h : Sound s) (a : A) : Cleared s [a] (clear s a) := by
  rw [clear]
  cases hmap : s.byAddress.lookup a with
  | none =>
    have hnone (event : ℕ) : s.listAt a event = none := by simp [State.listAt, hmap]
    have hrefl := Cleared.refl h
    refine ⟨h, rfl, rfl, rfl, ?_, fun _ => ⟨fun _ hid => hid, rfl, ?_⟩⟩
    · intro a' event slots hslots
      by_cases hne : a' = a
      · rw [if_pos (List.mem_singleton.mpr hne), hne, Ordered, State.regs,
          listOf_of_none (hnone event)]
        exact ⟨.refl _, fun _ => rfl⟩
      · rw [if_neg (fun hmem => hne (List.mem_singleton.mp hmem))]
        exact hslots
    · intro a' event id hid
      refine ⟨hid, fun hmem => ?_⟩
      rw [List.mem_singleton.mp hmem, hnone] at hid
      exact absurd hid (by simp)
  | some map =>
    have herase := erase_cleared h hmap
    obtain ⟨hkeeps, hcount, halike⟩ := clearLists_keeps (s := { s with
      byAddress := s.byAddress.erase a }) map.entries (herase.sound.recount s.count)
    simp only
    generalize clearLists map.entries { s with byAddress := s.byAddress.erase a } = t at *
    have htaken := hkeeps.recount (s.count - liveLists s map.entries)
    have hresult : ({ t with count := s.count - liveLists s map.entries } : State A C) = t := by
      have hsame : s.count - liveLists s map.entries = t.count := hcount.symm
      rw [hsame]
    rw [hresult] at htaken
    obtain ⟨hmapKeeps, hmapAlike⟩ := detach_map_keeps htaken.sound map
    refine (herase.keeps htaken fun hpos => ?_).keeps hmapKeeps hmapAlike
    have hsame := halike hpos
    exact ⟨hsame.byAddress, hsame.cleared, hsame.lists⟩

theorem foldl_clear_spec (addresses : List A) (h : Sound s) :
    Cleared s addresses (addresses.foldl clear s) := by
  induction addresses generalizing s with
  | nil => exact .refl h
  | cons address rest ih =>
    have hfirst := clear_spec h address
    exact hfirst.trans (ih hfirst.sound)

theorem reset_spec (h : Sound s) : Cleared s s.byAddress.keys (reset s) :=
  foldl_clear_spec _ h

end Clear

end Nupp.events
