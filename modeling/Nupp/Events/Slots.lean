import Mathlib.Data.List.Nodup
import Mathlib.Tactic.Ring
import Nupp.Events.Delivery

/-! One list of slots: what removal, compaction and the walk of a delivery do to the
registrations it keeps. -/

namespace Nupp.events

variable {C : Type}

/-- The registrations a list of slots keeps, without the tombstones. -/
def lives (slots : List (Slot C)) : List (Slot C) := slots.filter Slot.live

theorem serials_eq (slots : List (Slot C)) : serials slots = (lives slots).map Slot.serial := rfl

theorem liveIn_eq (list : ObserverList C) : liveIn list = (lives list.slots).length := by
  simp [liveIn, lives, List.countP_eq_length_filter]

@[simp]
theorem lives_append (xs ys : List (Slot C)) : lives (xs ++ ys) = lives xs ++ lives ys := by
  simp [lives]

theorem lives_cons (slot : Slot C) (rest : List (Slot C)) :
    lives (slot :: rest) = if slot.live then slot :: lives rest else lives rest :=
  List.filter_cons

@[simp]
theorem Slot.live_tombstone (slot : Slot C) : slot.tombstone.live = false := rfl

@[simp]
theorem Slot.once_tombstone (slot : Slot C) : slot.tombstone.once = false := rfl

/-- What a removal does to one slot. -/
def strike (gone : Slot C → Bool) (slot : Slot C) : Slot C :=
  if slot.live && gone slot then slot.tombstone else slot

theorem lives_strike (gone : Slot C → Bool) (slots : List (Slot C)) :
    lives (slots.map (strike gone)) = (lives slots).filter fun slot => !gone slot := by
  induction slots with
  | nil => rfl
  | cons slot rest ih =>
    rw [List.map_cons, lives_cons, lives_cons, ih]
    cases hlive : slot.live <;> cases hgone : gone slot <;>
      simp [strike, hlive, hgone]

/-- The counter a list keeps of its once registrations, which are never tombstones, and its
names, of which no two are equal. -/
structure ListOk (list : ObserverList C) : Prop where
  once : list.once = list.slots.countP Slot.once
  live : ∀ slot ∈ list.slots, slot.once → slot.live
  names : ((lives list.slots).filterMap Slot.name).Nodup

theorem listOk_empty : ListOk ({} : ObserverList C) where
  once := rfl
  live := by simp
  names := by simp [lives]

section Compaction

theorem compactLoop_perm (left : ℕ) (kept rest : List (Slot C)) (hlength : rest.length = left)
    (hkept : ∀ slot ∈ kept, slot.live) :
    (compactLoop left kept.length (kept ++ rest)).Perm (kept ++ lives rest) := by
  induction left generalizing kept rest with
  | zero =>
    obtain rfl := List.length_eq_zero_iff.mp hlength
    simp [compactLoop, lives]
  | succ left ih =>
    obtain ⟨slot, rest, rfl⟩ := List.exists_cons_of_length_eq_add_one hlength
    have hleft : rest.length = left := by simpa using hlength
    have hslot : (kept ++ slot :: rest)[kept.length]? = some slot := by simp
    rw [compactLoop, hslot]
    cases hlive : slot.live with
    | true =>
      have hkept' : ∀ other ∈ kept ++ [slot], other.live := by
        intro other hother
        rcases List.mem_append.mp hother with hold | hnew
        · exact hkept other hold
        · rwa [List.mem_singleton.mp hnew]
      have hind := ih (kept ++ [slot]) rest hleft hkept'
      simpa [hlive, lives] using hind
    | false =>
      rcases List.eq_nil_or_concat rest with rfl | ⟨middle, last, rfl⟩
      · have hind := ih kept [] hleft hkept
        simpa [hlive, lives] using hind
      · -- the last slot takes the place of the tombstone
        have hind := ih kept (last :: middle) (by simpa using hleft) hkept
        have hset : (kept ++ slot :: (middle ++ [last])).set kept.length last =
            kept ++ last :: (middle ++ [last]) := by
          simp
        have hdrop : (kept ++ last :: (middle ++ [last])).dropLast = kept ++ last :: middle := by
          rw [show kept ++ last :: (middle ++ [last]) = (kept ++ last :: middle) ++ [last] by simp]
          exact List.dropLast_concat
        have hlast : (kept ++ slot :: (middle ++ [last])).getLast? = some last := by
          rw [show kept ++ slot :: (middle ++ [last]) = (kept ++ slot :: middle) ++ [last] by simp]
          exact List.getLast?_concat
        have hshort : kept.length + 1 < (kept ++ slot :: (middle ++ [last])).length := by
          simp
        rw [List.concat_eq_append] at *
        simp only [Option.all_some, hlive, Bool.not_false, if_true, hlast, if_pos hshort, hset,
          hdrop]
        refine hind.trans (List.Perm.append_left kept ?_)
        have hswap : (last :: middle).Perm (slot :: middle ++ [last]).tail := by
          simpa using (List.perm_append_singleton last middle).symm
        have hlives : lives (slot :: (middle ++ [last])) = lives (middle ++ [last]) := by
          simp [lives, hlive]
        rw [hlives]
        exact (hswap.filter _).trans (by simp [lives])

theorem compact_perm (list : ObserverList C) :
    (compact list).slots.Perm (lives list.slots) := by
  have h := compactLoop_perm list.slots.length [] list.slots rfl (by simp)
  simpa [compact] using h

theorem compact_all_live {list : ObserverList C} {slot : Slot C}
    (h : slot ∈ (compact list).slots) : slot.live :=
  (List.mem_filter.mp ((compact_perm list).mem_iff.mp h)).2

theorem lives_compact (list : ObserverList C) :
    lives (compact list).slots = (compact list).slots :=
  List.filter_eq_self.mpr fun _ h => compact_all_live h

theorem lives_compact_perm (list : ObserverList C) :
    (lives (compact list).slots).Perm (lives list.slots) := by
  rw [lives_compact]
  exact compact_perm list

/-- Two orders of the same registrations are one when their serials are. -/
theorem eq_of_serials {xs ys : List (Slot C)} (hperm : xs.Perm ys)
    (hserials : xs.map Slot.serial = ys.map Slot.serial)
    (hnodup : (ys.map Slot.serial).Nodup) : xs = ys := by
  have hlength : xs.length = ys.length := hperm.length_eq
  apply List.ext_getElem hlength
  intro index hx hy
  apply List.inj_on_of_nodup_map hnodup (hperm.mem_iff.mp (List.getElem_mem hx))
    (List.getElem_mem hy)
  have h := congrArg (fun l : List ℕ => l[index]?) hserials
  simpa [hx, hy] using h

theorem lives_compact_eq {list : ObserverList C} (hnodup : (serials list.slots).Nodup)
    (h : (compact list).shuffled = false) :
    list.shuffled = false ∧ lives (compact list).slots = lives list.slots := by
  have hflags : list.shuffled = false ∧ serials (compact list).slots = serials list.slots := by
    simpa [compact] using h
  exact ⟨hflags.1, eq_of_serials (lives_compact_perm list) hflags.2 hnodup⟩

theorem compact_ok {list : ObserverList C} (h : ListOk list) : ListOk (compact list) where
  once := by
    have hcount := (compact_perm list).countP_eq Slot.once
    have hlive : (lives list.slots).countP Slot.once = list.slots.countP Slot.once := by
      rw [lives, List.countP_filter]
      apply List.countP_congr
      intro slot hslot
      have := h.live slot hslot
      grind
    rw [hcount, hlive]
    exact h.once
  live := fun _ hslot _ => compact_all_live hslot
  names := ((lives_compact_perm list).filterMap Slot.name).nodup_iff.mpr h.names

end Compaction

section Removal

variable [DecidableEq C]


theorem stopLoop_name {name : String} {slot : Slot C} (rest : List (Slot C))
    (h : (slot.live && slot.matches (.name name)) = true) :
    stopLoop (.name name) (slot :: rest) =
      (slot.tombstone :: rest, 1, if slot.once then 1 else 0) := by
  rw [stopLoop, if_pos h]

theorem stopLoop_callback {callback : C} {slot : Slot C} (rest : List (Slot C))
    (h : (slot.live && slot.matches (.callback callback)) = true) :
    stopLoop (.callback callback) (slot :: rest) =
      (slot.tombstone :: (stopLoop (.callback callback) rest).1,
        (stopLoop (.callback callback) rest).2.1 + 1,
        (stopLoop (.callback callback) rest).2.2 + if slot.once then 1 else 0) := by
  rw [stopLoop, if_pos h]

theorem stopLoop_skip {key : Key C} {slot : Slot C} (rest : List (Slot C))
    (h : ¬(slot.live && slot.matches key) = true) :
    stopLoop key (slot :: rest) = (slot :: (stopLoop key rest).1, (stopLoop key rest).2) := by
  rw [stopLoop, if_neg h]

private theorem strike_of_names {name : String} {slot : Slot C} {rest : List (Slot C)}
    (hslot : slot.live) (hname : slot.name = some name)
    (h : ((lives (slot :: rest)).filterMap Slot.name).Nodup) :
    rest.map (strike (Slot.matches (.name name))) = rest := by
  have hcons : lives (slot :: rest) = slot :: lives rest := by simp [lives, hslot]
  rw [hcons, List.filterMap_cons_some hname] at h
  have hfresh := (List.nodup_cons.mp h).1
  refine (List.map_congr_left ?_).trans (List.map_id rest)
  intro other hother
  have hdifferent : ¬(other.live ∧ other.name = some name) := by
    rintro ⟨hlive, hsame⟩
    exact hfresh (List.mem_filterMap.mpr ⟨other, List.mem_filter.mpr ⟨hother, hlive⟩, hsame⟩)
  simp only [strike, Slot.matches, Bool.and_eq_true, beq_iff_eq, if_neg hdifferent, id_eq]

/-- With its names distinct, a list loses to `stop` exactly the registrations that match. -/
theorem stopLoop_slots (key : Key C) {slots : List (Slot C)}
    (h : ((lives slots).filterMap Slot.name).Nodup) :
    (stopLoop key slots).1 = slots.map (strike (Slot.matches key)) := by
  induction slots with
  | nil => rfl
  | cons slot rest ih =>
    have hrest : ((lives rest).filterMap Slot.name).Nodup := by
      have hsub : (lives rest).Sublist (lives (slot :: rest)) :=
        List.Sublist.filter _ (List.sublist_cons_self slot rest)
      exact h.sublist (hsub.filterMap Slot.name)
    by_cases hmatch : (slot.live && slot.matches key) = true
    · cases key with
      | name name =>
        have hboth : slot.live ∧ slot.name = some name := by
          simpa [Slot.matches] using hmatch
        have hothers := strike_of_names hboth.1 hboth.2 h
        rw [stopLoop_name rest hmatch, List.map_cons, hothers, strike, if_pos hmatch]
      | callback callback =>
        rw [stopLoop_callback rest hmatch, List.map_cons, ih hrest, strike, if_pos hmatch]
    · rw [stopLoop_skip rest hmatch, List.map_cons, ih hrest, strike, if_neg hmatch]

theorem stopLoop_removed (key : Key C) (slots : List (Slot C)) :
    (lives (stopLoop key slots).1).length + (stopLoop key slots).2.1 = (lives slots).length := by
  induction slots with
  | nil => rfl
  | cons slot rest ih =>
    by_cases hmatch : (slot.live && slot.matches key) = true
    · have hlive : slot.live = true := (Bool.and_eq_true _ _ ▸ hmatch).1
      cases key with
      | name name => simp [stopLoop_name rest hmatch, lives_cons, hlive]
      | callback callback =>
        simp [stopLoop_callback rest hmatch, lives_cons, hlive]
        omega
    · rw [stopLoop_skip rest hmatch]
      cases hlive : slot.live with
      | true =>
        simp only [lives_cons, hlive, if_true, List.length_cons]
        omega
      | false => simpa [lives_cons, hlive] using ih

theorem stopLoop_once (key : Key C) (slots : List (Slot C)) :
    (stopLoop key slots).1.countP Slot.once + (stopLoop key slots).2.2 =
      slots.countP Slot.once := by
  induction slots with
  | nil => rfl
  | cons slot rest ih =>
    by_cases hmatch : (slot.live && slot.matches key) = true
    · cases key with
      | name name => simp [stopLoop_name rest hmatch, List.countP_cons]
      | callback callback =>
        simp only [stopLoop_callback rest hmatch, List.countP_cons, Slot.once_tombstone,
          Bool.false_eq_true, if_false]
        omega
    · simp only [stopLoop_skip rest hmatch, List.countP_cons]
      omega

theorem stopLoop_ok (key : Key C) {list : ObserverList C} (h : ListOk list) :
    ListOk { list with
      slots := (stopLoop key list.slots).1
      once := list.once - (stopLoop key list.slots).2.2
      holes := list.holes + (stopLoop key list.slots).2.1 } where
  once := by
    have hcount := stopLoop_once key list.slots
    have honce := h.once
    simp only
    omega
  live := by
    intro slot hslot
    rw [stopLoop_slots key h.names] at hslot
    obtain ⟨old, hold, rfl⟩ := List.mem_map.mp hslot
    have := h.live old hold
    unfold strike
    split <;> simp_all
  names := by
    rw [stopLoop_slots key h.names, lives_strike]
    exact h.names.sublist ((List.filter_sublist).filterMap _)

end Removal

section Walk

theorem lives_set {slots : List (Slot C)} {index : ℕ} {slot : Slot C}
    (h : slots[index]? = some slot) :
    lives (slots.set index slot.tombstone) =
      lives (slots.take index) ++ lives (slots.drop (index + 1)) := by
  obtain ⟨hlt, rfl⟩ := List.getElem?_eq_some_iff.mp h
  rw [List.set_eq_take_append_cons_drop, if_pos hlt]
  simp [lives]

theorem lives_split {slots : List (Slot C)} {index : ℕ} {slot : Slot C}
    (h : slots[index]? = some slot) (hlive : slot.live) :
    lives slots = lives (slots.take index) ++ slot :: lives (slots.drop (index + 1)) := by
  obtain ⟨hlt, rfl⟩ := List.getElem?_eq_some_iff.mp h
  have hparts : slots = slots.take index ++ slots[index] :: slots.drop (index + 1) := by
    rw [← List.drop_eq_getElem_cons hlt, List.take_append_drop]
  have hlives := congrArg lives hparts
  rwa [lives_append, lives_cons, if_pos hlive] at hlives

theorem set_ok {list : ObserverList C} {index : ℕ} {slot : Slot C} (h : ListOk list)
    (hslot : list.slots[index]? = some slot) (honce : slot.once) :
    ListOk { list with
      slots := list.slots.set index slot.tombstone
      once := list.once - 1
      holes := list.holes + 1 } where
  once := by
    obtain ⟨hlt, rfl⟩ := List.getElem?_eq_some_iff.mp hslot
    have hcount := h.once
    have hpos : 0 < list.slots.countP Slot.once :=
      List.countP_pos_iff.mpr ⟨_, List.getElem_mem hlt, honce⟩
    simp only [List.countP_set hlt, honce, if_true, Slot.once_tombstone, Bool.false_eq_true,
      if_false]
    omega
  live := by
    intro other hother
    rcases List.mem_or_eq_of_mem_set hother with hold | rfl
    · exact h.live other hold
    · simp
  names := by
    simp only [lives_set hslot]
    have hsub : (lives (list.slots.take index) ++ lives (list.slots.drop (index + 1))).Sublist
        (lives list.slots) := by
      rw [← lives_append]
      have hdrop := (List.drop_sublist_drop_left list.slots (Nat.le_succ index)).append_left
        (list.slots.take index)
      rw [List.take_append_drop] at hdrop
      exact hdrop.filter _
    exact h.names.sublist (hsub.filterMap Slot.name)

/-- What a delivery that has reached `index` has still to call. -/
def pending (slots : List (Slot C)) (n index : ℕ) : List (Slot C) :=
  lives ((slots.take n).drop index)

theorem nextLive_spec (slots : List (Slot C)) (n : ℕ) (hn : n ≤ slots.length) (left index : ℕ)
    (hleft : left = n - index) :
    match nextLive slots left index with
    | none => pending slots n index = []
    | some (next, slot) => index ≤ next ∧ next < n ∧ slots[next]? = some slot ∧ slot.live ∧
        pending slots n index = slot :: pending slots n (next + 1) := by
  induction left generalizing index with
  | zero =>
    have hle : n ≤ index := by omega
    simp [nextLive, pending, lives, List.drop_eq_nil_of_le, hle]
  | succ left ih =>
    have hlt : index < n := by omega
    have hslots : index < slots.length := by omega
    have hget : slots[index]? = some slots[index] := List.getElem?_eq_getElem hslots
    have htake : index < (slots.take n).length := by
      rw [List.length_take]
      omega
    have hsplit : (slots.take n).drop index = slots[index] :: (slots.take n).drop (index + 1) := by
      rw [List.drop_eq_getElem_cons htake, List.getElem_take]
    simp only [nextLive, hget]
    cases hlive : slots[index].live with
    | true =>
      simp only [if_true]
      refine ⟨le_rfl, hlt, hget, hlive, ?_⟩
      simp [pending, hsplit, lives, hlive]
    | false =>
      have hskip : pending slots n index = pending slots n (index + 1) := by
        simp [pending, hsplit, lives, hlive]
      have hind := ih (index + 1) (by omega)
      simp only [Bool.false_eq_true, if_false, hskip]
      split at hind
      · exact hind
      · exact ⟨by omega, hind.2⟩

end Walk

end Nupp.events
