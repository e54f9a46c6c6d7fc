import Nupp.Workers.ValueCodecWire

/-! Values survive the crossing: what validation accepts is copied, and what is decoded is
what some pack was encoded to, unless a key was written as a negative zero. -/

namespace Nupp.ValueCodec

open Data Decimal Double Result

variable {ι μ ν : Type}

/-! Values as trees. -/

def SpellsRecord (sender : Realm μ) : Option μ → Option Bytes → Prop
  | none, none => True
  | some m, some address => sender.recordAddress m = some address
  | _, _ => False

mutual

/-- A value of a heap is written as a tree, its entries in their order. -/
def Spells (heap : Heap ι μ) (sender : Realm μ) : Value ι → Tree Bytes → Prop
  | v, .nil => v = .nil
  | v, .scalar s => v = .scalar s
  | v, .table address entries => ∃ id, v = .table id ∧ SpellsRecord sender (heap id).metatable address ∧
      SpellsEntries heap sender (heap id).entries entries

def SpellsEntries (heap : Heap ι μ) (sender : Realm μ) : List (Value ι × Value ι) → Entries Bytes → Prop
  | l, .nil => l = []
  | l, .cons key item rest => ∃ v others, l = (.scalar key, v) :: others ∧ Spells heap sender v item ∧
      SpellsEntries heap sender others rest

end

/-- Metatables of two states that belong to records of one address. -/
def SameRecord (sender : Realm μ) (receiver : Realm ν) : Option μ → Option ν → Prop
  | none, none => True
  | some m, some n => ∃ address, sender.recordAddress m = some address ∧ receiver.recordAddress n = some address
  | _, _ => False

mutual

/-- A copied value is structurally equal to a value of a heap: the same scalars, and tables
of the same record that file equal values under the same keys. -/
def Same (heap : Heap ι μ) (sender : Realm μ) (receiver : Realm ν) : Value ι → Tree ν → Prop
  | v, .nil => v = .nil
  | v, .scalar s => v = .scalar s
  | v, .table record entries => ∃ id l, v = .table id ∧ l.Perm (heap id).entries ∧
      SameRecord sender receiver (heap id).metatable record ∧ SameEntries heap sender receiver l entries

def SameEntries (heap : Heap ι μ) (sender : Realm μ) (receiver : Realm ν) :
    List (Value ι × Value ι) → Entries ν → Prop
  | l, .nil => l = []
  | l, .cons key item rest => ∃ v others, l = (.scalar key, v) :: others ∧ Same heap sender receiver v item ∧
      SameEntries heap sender receiver others rest

end

mutual

def Tree.height {ρ : Type} : Tree ρ → ℕ
  | .nil => 0
  | .scalar _ => 0
  | .table _ entries => entries.height + 1

def Entries.height {ρ : Type} : Entries ρ → ℕ
  | .nil => 0
  | .cons _ item rest => max item.height rest.height

end

mutual

/-- No key of a message is the number `-0`. -/
def Tree.NoNegativeZeroKey : Tree Bytes → Prop
  | .nil => True
  | .scalar _ => True
  | .table _ entries => entries.NoNegativeZeroKey

def Entries.NoNegativeZeroKey : Entries Bytes → Prop
  | .nil => True
  | .cons key item rest => key ≠ negativeZero ∧ item.NoNegativeZeroKey ∧ rest.NoNegativeZeroKey

end

section Written

variable {heap : Heap ι μ} {sender : Realm μ}

theorem writeTag_of_spellsRecord {m : Option μ} {address : Option Bytes} (h : SpellsRecord sender m address) :
    m.bind sender.recordAddress = address := by
  match m, address, h with
  | none, none, _ => rfl
  | some m, some address, h => exact h

theorem SpellsEntries.length {l : List (Value ι × Value ι)} {entries : Entries Bytes}
    (h : SpellsEntries heap sender l entries) : l.length = entries.length := by
  match entries, h with
  | .nil, h => rw [SpellsEntries] at h; rw [h]; rfl
  | .cons key item rest, h =>
    rw [SpellsEntries] at h
    obtain ⟨v, others, rfl, -, hrest⟩ := h
    rw [List.length_cons, Entries.length, hrest.length]

mutual

theorem Spells.write {v : Value ι} {w : Tree Bytes} {stack : ℕ} (h : Spells heap sender v w)
    (hstack : w.height ≤ stack) : writeValue heap sender stack v = .ok w.render := by
  match w, h with
  | .nil, h =>
    rw [Spells] at h
    subst h
    simp [writeValue, Tree.render]
  | .scalar s, h =>
    rw [Spells] at h
    subst h
    simp [writeValue, Tree.render]
  | .table address entries, h =>
    rw [Spells] at h
    obtain ⟨id, rfl, hrecord, hentries⟩ := h
    rw [Tree.height] at hstack
    obtain ⟨stack, rfl⟩ := Nat.exists_eq_succ_of_ne_zero (show stack ≠ 0 by omega)
    obtain ⟨texts, htexts, hflat⟩ := SpellsEntries.write hentries (show entries.height ≤ stack by omega)
    rw [writeValue]
    simp only [htexts, ok_bind, writeTag_of_spellsRecord hrecord, hentries.length, hflat]
    rw [Tree.render, List.append_assoc]
    rfl

theorem SpellsEntries.write {l : List (Value ι × Value ι)} {entries : Entries Bytes} {stack : ℕ}
    (h : SpellsEntries heap sender l entries) (hstack : entries.height ≤ stack) :
    ∃ texts, (l.mapM fun e => do
      let key ← writeValue heap sender stack e.1
      let item ← writeValue heap sender stack e.2
      return key ++ item) = .ok texts ∧ texts.flatten = entries.render := by
  match entries, h with
  | .nil, h =>
    rw [SpellsEntries] at h
    subst h
    exact ⟨[], rfl, rfl⟩
  | .cons key item rest, h =>
    rw [SpellsEntries] at h
    obtain ⟨v, others, rfl, hitem, hrest⟩ := h
    rw [Entries.height] at hstack
    have hwrite := Spells.write hitem (show item.height ≤ stack by omega)
    obtain ⟨texts, htexts, hflat⟩ := SpellsEntries.write hrest (show rest.height ≤ stack by omega)
    have hkey : writeValue heap sender stack (.scalar key) = .ok (writeScalar key) := by
      cases stack <;> rfl
    refine ⟨(writeScalar key ++ item.render) :: texts, ?_, ?_⟩
    · rw [List.mapM_cons]
      simp only [hkey, hwrite, ok_bind, htexts]
      rfl
    · rw [List.flatten_cons, hflat, Entries.render, List.append_assoc]

end

end Written

/-! Validation. -/

mutual

def Tree.addresses : Tree Bytes → List Bytes
  | .nil => []
  | .scalar _ => []
  | .table address entries => address.toList ++ entries.addresses

def Entries.addresses : Entries Bytes → List Bytes
  | .nil => []
  | .cons _ item rest => item.addresses ++ rest.addresses

end

/-- Every record a transfer knows is among its addresses. -/
def TransferState.Noted (state : TransferState ι μ) : Prop :=
  ∀ address m, state.records.lookup address = some m → address ∈ state.addresses

/-- What validation knows after a part of a message whose addresses are `part`. -/
structure Grown (before after : TransferState ι μ) (part : List Bytes) : Prop where
  noted : after.Noted
  kept : before.addresses ⊆ after.addresses
  found : part ⊆ after.addresses

theorem Grown.nil {state : TransferState ι μ} (h : state.Noted) : Grown state state [] :=
  ⟨h, fun _ ha => ha, List.nil_subset _⟩

theorem Grown.append {a b c : TransferState ι μ} {p q : List Bytes} (h : Grown a b p) (h' : Grown b c q) :
    Grown a c (p ++ q) :=
  ⟨h'.noted, fun _ hx => h'.kept (h.kept hx),
    List.append_subset.mpr ⟨fun _ hx => h'.kept (h.found hx), h'.found⟩⟩

theorem register_spec [DecidableEq μ] {realm : Realm μ} {path : Bytes} {metatable : Option μ} {before after : TransferState ι μ}
    (h : register realm path before metatable = .ok after) (hnoted : before.Noted) :
    ∃ address, SpellsRecord realm metatable address ∧ Grown before after address.toList := by
  cases metatable with
  | none =>
    cases h
    exact ⟨none, trivial, .nil hnoted⟩
  | some m =>
    rw [register] at h
    cases haddress : realm.recordAddress m with
    | none => rw [haddress] at h; cases h
    | some address =>
      refine ⟨some address, haddress, ?_⟩
      rw [haddress] at h
      simp only at h
      cases hprior : before.records.lookup address with
      | none =>
        rw [hprior] at h
        cases h
        refine ⟨fun a n hn => ?_, fun a ha => List.mem_append_left _ ha, ?_⟩
        · rw [List.lookup_cons] at hn
          by_cases heq : a = address
          · subst heq
            exact List.mem_append_right _ (List.mem_singleton_self a)
          · rw [beq_false_of_ne heq] at hn
            exact List.mem_append_left _ (hnoted a n hn)
        · intro a ha
          exact List.mem_append_right _ ha
      | some prior =>
        rw [hprior] at h
        simp only at h
        split_ifs at h
        cases h
        refine ⟨hnoted, fun a ha => ha, fun a ha => ?_⟩
        rw [Option.toList_some, List.mem_singleton] at ha
        rw [ha]
        exact hnoted address prior hprior

theorem scalar_of_sendable {v : Value ι} (h : sendable v = true) (hv : v ≠ .nil) : ∃ s, v = .scalar s := by
  cases v with
  | nil => exact absurd rfl hv
  | scalar s => exact ⟨s, rfl⟩
  | table id => cases h
  | other kind => cases h

theorem unsendableEntry_spec {heap : Heap ι μ} {realm : Realm μ} {levels : ℕ}
    {check : Value ι → Bytes → TransferState ι μ → Except Bytes (TransferState ι μ)}
    (hcheck : ∀ {v path before after}, check v path before = .ok after → before.Noted →
      ∃ w, Spells heap realm v w ∧ w.height ≤ levels ∧ Grown before after w.addresses)
    {path : Bytes} {e : Value ι × Value ι} {before after : TransferState ι μ}
    (h : unsendableEntry check path before e = .ok after) (hkey : ProperKey e.1) (hitem : e.2 ≠ .nil)
    (hnoted : before.Noted) :
    ∃ k w, e.1 = .scalar k ∧ Spells heap realm e.2 w ∧ w.height ≤ levels ∧ Grown before after w.addresses := by
  rw [unsendableEntry] at h
  split_ifs at h with hsendable hscalar
  · obtain ⟨k, hk⟩ := scalar_of_sendable hsendable (fun hnil => by rw [hnil] at hkey; exact hkey)
    obtain ⟨s, hs⟩ := scalar_of_sendable hscalar hitem
    cases h
    exact ⟨k, .scalar s, hk, by rw [Spells, hs], Nat.zero_le _, .nil hnoted⟩
  · obtain ⟨k, hk⟩ := scalar_of_sendable hsendable (fun hnil => by rw [hnil] at hkey; exact hkey)
    obtain ⟨w, hw⟩ := hcheck h hnoted
    exact ⟨k, w, hk, hw⟩

theorem unsendableEntries_spec {heap : Heap ι μ} {realm : Realm μ} {levels : ℕ}
    {check : Value ι → Bytes → TransferState ι μ → Except Bytes (TransferState ι μ)}
    (hcheck : ∀ {v path before after}, check v path before = .ok after → before.Noted →
      ∃ w, Spells heap realm v w ∧ w.height ≤ levels ∧ Grown before after w.addresses)
    {path : Bytes} {l : List (Value ι × Value ι)} {before after : TransferState ι μ}
    (h : l.foldlM (unsendableEntry check path) before = .ok after)
    (hl : ∀ e ∈ l, ProperKey e.1 ∧ e.2 ≠ .nil) (hnoted : before.Noted) :
    ∃ entries, SpellsEntries heap realm l entries ∧ entries.height ≤ levels ∧
      Grown before after entries.addresses := by
  induction l generalizing before with
  | nil =>
    cases h
    exact ⟨.nil, by rw [SpellsEntries], Nat.zero_le _, .nil hnoted⟩
  | cons e l ih =>
    rw [List.foldlM_cons] at h
    obtain ⟨next, hnext, h⟩ := bind_eq_ok.mp h
    obtain ⟨hkey, hitem⟩ := hl e List.mem_cons_self
    obtain ⟨k, w, hk, hw, hwheight, hwgrown⟩ := unsendableEntry_spec hcheck hnext hkey hitem hnoted
    obtain ⟨entries, hspells, hheight, hgrown⟩ :=
      ih h (fun e he => hl e (List.mem_cons_of_mem _ he)) hwgrown.noted
    refine ⟨.cons k w entries, ?_, ?_, hwgrown.append hgrown⟩
    · rw [SpellsEntries]
      exact ⟨e.2, l, by rw [← hk], hw, hspells⟩
    · rw [Entries.height]
      omega

/-- What validation accepts is written as a tree within its levels. -/
theorem unsendable_spec [DecidableEq ι] [DecidableEq μ] {heap : Heap ι μ} {realm : Realm μ} {levels : ℕ}
    {v : Value ι} {path : Bytes} {before after : TransferState ι μ}
    (h : unsendable heap realm levels v path before = .ok after) (hnoted : before.Noted) :
    ∃ w, Spells heap realm v w ∧ w.height ≤ levels ∧ Grown before after w.addresses := by
  induction levels generalizing v path before after with
  | zero =>
    cases v with
    | nil => cases h; exact ⟨.nil, by rw [Spells], Nat.zero_le _, .nil hnoted⟩
    | scalar s => cases h; exact ⟨.scalar s, by rw [Spells], Nat.zero_le _, .nil hnoted⟩
    | other kind => cases h
    | table id =>
      rw [unsendable] at h
      obtain ⟨_, _, h⟩ := bind_eq_ok.mp h
      cases h
  | succ levels ih =>
    cases v with
    | nil => cases h; exact ⟨.nil, by rw [Spells], Nat.zero_le _, .nil hnoted⟩
    | scalar s => cases h; exact ⟨.scalar s, by rw [Spells], Nat.zero_le _, .nil hnoted⟩
    | other kind => cases h
    | table id =>
      rw [unsendable] at h
      obtain ⟨mid, hmid, h⟩ := bind_eq_ok.mp h
      split_ifs at h with hseen
      obtain ⟨address, hrecord, hgrown⟩ := register_spec hmid hnoted
      obtain ⟨entries, hspells, hheight, hgrown'⟩ := unsendableEntries_spec ih h
        (fun e he => ⟨(heap id).proper_keys e he, (heap id).items_ne_nil e he⟩) hgrown.noted
      refine ⟨.table address entries, ?_, by rw [Tree.height]; omega, ?_⟩
      · rw [Spells]
        exact ⟨id, rfl, hrecord, hspells⟩
      · exact hgrown.append ⟨hgrown'.noted, hgrown'.kept, hgrown'.found⟩

/-! Copies. -/

theorem resolveRecord_address {realm : Realm μ} {address : Bytes} {m : μ}
    (h : resolveRecord realm address = .ok m) : realm.recordAddress m = some address := by
  rw [resolveRecord] at h
  split_ifs at h
  split at h
  · obtain ⟨root, -, h⟩ := bind_eq_ok.mp h
    obtain ⟨value, -, h⟩ := bind_eq_ok.mp h
    cases value with
    | none => cases h
    | some table =>
      simp only at h
      split_ifs at h with haddress
      cases h
      exact haddress
  · cases h

theorem Scalar.key_eq {s : Scalar} (h : s ≠ negativeZero) : s.key = s := if_neg h

section Copied

variable {heap : Heap ι μ} {sender : Realm μ} {receiver : Realm ν}

theorem ne_nil_of_same {v : Value ι} {t : Tree ν} (h : Same heap sender receiver v t) (hv : v ≠ .nil) :
    t ≠ .nil := by
  rintro rfl
  rw [Same] at h
  exact hv h

theorem entryKey_ok {present : List Scalar} {key : Scalar} {item : Tree ν} (hitem : item ≠ .nil)
    (hnan : key ≠ .number .nan) (hpresent : key.key ∉ present) :
    entryKey present (.scalar key) item = .ok key.key := by
  cases item with
  | nil => exact absurd rfl hitem
  | scalar s => simp [entryKey, hnan, hpresent]
  | table record entries => simp [entryKey, hnan, hpresent]

theorem copyRecord_of_spells {m : Option μ} {address : Option Bytes} (h : SpellsRecord sender m address)
    (hres : ∀ a ∈ address.toList, ∃ n, resolveRecord receiver a = .ok n) :
    ∃ record, copyRecord receiver address = some record ∧ SameRecord sender receiver m record := by
  match m, address, h with
  | none, none, _ => exact ⟨none, rfl, trivial⟩
  | some m, some address, h =>
    obtain ⟨n, hn⟩ := hres address (by simp)
    exact ⟨some n, by simp [copyRecord, hn, Except.toOption], address, h, resolveRecord_address hn⟩

mutual

theorem Spells.copy {v : Value ι} {w : Tree Bytes} {levels : ℕ} (h : Spells heap sender v w)
    (hlevels : w.height < levels) (hres : ∀ a ∈ w.addresses, ∃ n, resolveRecord receiver a = .ok n) :
    ∃ t, w.copy receiver levels = some t ∧ Same heap sender receiver v t := by
  match w, h with
  | .nil, h =>
    obtain ⟨levels, rfl⟩ := Nat.exists_eq_succ_of_ne_zero (show levels ≠ 0 by omega)
    rw [Spells] at h
    exact ⟨.nil, rfl, by rw [Same, h]⟩
  | .scalar s, h =>
    obtain ⟨levels, rfl⟩ := Nat.exists_eq_succ_of_ne_zero (show levels ≠ 0 by omega)
    rw [Spells] at h
    exact ⟨.scalar s, rfl, by rw [Same, h]⟩
  | .table address entries, h =>
    rw [Tree.height] at hlevels
    obtain ⟨n, rfl⟩ := Nat.exists_eq_add_of_le (show 2 ≤ levels by omega)
    rw [Spells] at h
    obtain ⟨id, rfl, hrecord, hentries⟩ := h
    rw [Tree.addresses] at hres
    obtain ⟨record, hcopied, hsame⟩ :=
      copyRecord_of_spells hrecord (fun a ha => hres a (List.mem_append_left _ ha))
    obtain ⟨copied, hcopy, hentries'⟩ := SpellsEntries.copy hentries (show entries.height < n + 1 by omega)
      (fun a ha => hres a (List.mem_append_right _ ha)) (heap id).nodup_keys
      (fun e he => ⟨(heap id).proper_keys e he, (heap id).items_ne_nil e he⟩)
      (show ∀ k ∈ ([] : List Scalar), _ from nofun)
    refine ⟨.table record copied, ?_, ?_⟩
    · rw [Nat.add_comm 2 n]
      simp [Tree.copy, hcopy, hcopied]
    · rw [Same]
      exact ⟨id, _, rfl, .refl _, hsame, hentries'⟩

theorem SpellsEntries.copy {l : List (Value ι × Value ι)} {entries : Entries Bytes} {levels : ℕ}
    {present : List Scalar} (h : SpellsEntries heap sender l entries) (hlevels : entries.height < levels)
    (hres : ∀ a ∈ entries.addresses, ∃ n, resolveRecord receiver a = .ok n)
    (hnodup : (l.map Prod.fst).Nodup) (hl : ∀ e ∈ l, ProperKey e.1 ∧ e.2 ≠ .nil)
    (hpresent : ∀ k ∈ present, Value.scalar k ∉ l.map Prod.fst) :
    ∃ copied, entries.copy receiver levels present = some copied ∧
      SameEntries heap sender receiver l copied := by
  match entries, h with
  | .nil, h =>
    rw [SpellsEntries] at h
    exact ⟨.nil, by rw [Entries.copy], by rw [SameEntries, h]⟩
  | .cons key item rest, h =>
    rw [SpellsEntries] at h
    obtain ⟨v, others, rfl, hitem, hrest⟩ := h
    rw [Entries.height] at hlevels
    rw [Entries.addresses] at hres
    rw [List.map_cons, List.nodup_cons] at hnodup
    obtain ⟨hkey, hv⟩ := hl _ List.mem_cons_self
    obtain ⟨t, ht, hsame⟩ := Spells.copy hitem (show item.height < levels by omega)
      (fun a ha => hres a (List.mem_append_left _ ha))
    have hfiled : key.key = key := Scalar.key_eq hkey.2
    have hentry : entryKey present (.scalar key) t = .ok key := by
      rw [entryKey_ok (ne_nil_of_same hsame hv) hkey.1 ?_, hfiled]
      rw [hfiled]
      exact fun hmem => hpresent key hmem List.mem_cons_self
    have hnext : ∀ k ∈ key :: present, Value.scalar k ∉ others.map Prod.fst := by
      intro k hk
      rcases List.mem_cons.mp hk with rfl | hk
      · exact hnodup.1
      · exact fun hmem => hpresent k hk (List.mem_cons_of_mem _ hmem)
    obtain ⟨copied, hcopy, hentries⟩ := SpellsEntries.copy hrest (show rest.height < levels by omega)
      (fun a ha => hres a (List.mem_append_right _ ha)) hnodup.2
      (fun e he => hl e (List.mem_cons_of_mem _ he)) hnext
    refine ⟨.cons key t copied, ?_, ?_⟩
    · simp only [Entries.copy, ht, hentry, hcopy, Option.map_some]
    · rw [SameEntries]
      exact ⟨v, others, rfl, hsame, hentries⟩

end

end Copied

/-! Packs. -/

theorem exists_forall₂ {α β : Type} {r : α → β → Prop} {q : β → Prop} {l : List α}
    (h : ∀ a ∈ l, ∃ b, r a b ∧ q b) : ∃ m, List.Forall₂ r l m ∧ ∀ b ∈ m, q b := by
  induction l with
  | nil => exact ⟨[], .nil, nofun⟩
  | cons a l ih =>
    obtain ⟨b, hr, hq⟩ := h a List.mem_cons_self
    obtain ⟨m, hm, hall⟩ := ih (fun a ha => h a (List.mem_cons_of_mem _ ha))
    refine ⟨b :: m, .cons hr hm, fun c hc => ?_⟩
    rcases List.mem_cons.mp hc with rfl | hc
    · exact hq
    · exact hall c hc

theorem exists_of_forall₂ {α β : Type} {r : α → β → Prop} {l : List α} {m : List β}
    (h : List.Forall₂ r l m) {a : α} (ha : a ∈ l) : ∃ b, r a b := by
  induction h with
  | nil => cases ha
  | cons hr _ ih =>
    rcases List.mem_cons.mp ha with rfl | ha
    · exact ⟨_, hr⟩
    · exact ih ha

section Pack

variable {heap : Heap ι μ} {sender : Realm μ} {receiver : Realm ν}

theorem encodeValues_of_spells {vs : List (Value ι)} {ws : List (Tree Bytes)} {stack : ℕ}
    (h : List.Forall₂ (Spells heap sender) vs ws) (hstack : ∀ w ∈ ws, w.height ≤ stack) :
    encodeValues heap sender stack vs = .ok (renderPack ws) := by
  have hmap : vs.mapM (writeValue heap sender stack) = .ok (ws.map Tree.render) := by
    rw [mapM_eq_ok]
    induction h with
    | nil => exact .nil
    | cons hv _ ih =>
      exact .cons (hv.write (hstack _ List.mem_cons_self))
        (ih fun w hw => hstack w (List.mem_cons_of_mem _ hw))
  rw [encodeValues, hmap, ok_bind, renderPack, h.length_eq, List.flatMap_def]
  rfl

theorem copyPack_of_spells {vs : List (Value ι)} {ws : List (Tree Bytes)}
    (h : List.Forall₂ (Spells heap sender) vs ws) (hheight : ∀ w ∈ ws, w.height ≤ maxDepth)
    (hres : ∀ w ∈ ws, ∀ a ∈ w.addresses, ∃ n, resolveRecord receiver a = .ok n) :
    ∃ ts, copyPack receiver ws = some ts ∧ List.Forall₂ (Same heap sender receiver) vs ts := by
  induction h with
  | nil => exact ⟨[], rfl, .nil⟩
  | @cons v w vs ws hv _ ih =>
    have hlt : w.height < maxDepth + 1 := Nat.lt_succ_of_le (hheight w List.mem_cons_self)
    obtain ⟨t, ht, hsame⟩ := hv.copy hlt (hres w List.mem_cons_self)
    obtain ⟨ts, hts, hsames⟩ := ih (fun w hw => hheight w (List.mem_cons_of_mem _ hw))
      (fun w hw => hres w (List.mem_cons_of_mem _ hw))
    refine ⟨t :: ts, ?_, .cons hsame hsames⟩
    rw [copyPack] at hts ⊢
    rw [List.mapM_cons, ht, hts]
    rfl

theorem SpellsEntries.item {l : List (Value ι × Value ι)} {entries : Entries Bytes}
    (h : SpellsEntries heap sender l entries) {e : Value ι × Value ι} (he : e ∈ l) :
    ∃ w, Spells heap sender e.2 w ∧ w.height ≤ entries.height ∧ w.addresses ⊆ entries.addresses := by
  match entries, h with
  | .nil, h =>
    rw [SpellsEntries] at h
    rw [h] at he
    cases he
  | .cons key item rest, h =>
    rw [SpellsEntries] at h
    obtain ⟨v, others, rfl, hitem, hrest⟩ := h
    rw [Entries.height, Entries.addresses]
    rcases List.mem_cons.mp he with rfl | he
    · exact ⟨item, hitem, Nat.le_max_left _ _, List.subset_append_left _ _⟩
    · obtain ⟨w, hw, hheight, haddresses⟩ := hrest.item he
      exact ⟨w, hw, by omega, fun a ha => List.mem_append_right _ (haddresses ha)⟩

variable [DecidableEq ι]

theorem Table.get_mem (t : Table ι μ) (key : Value ι) : t.get key = .nil ∨ ∃ e ∈ t.entries, e.2 = t.get key := by
  rw [Table.get]
  cases h : t.entries.lookup key with
  | none => exact .inl rfl
  | some v =>
    obtain ⟨l, r, hsplit, -⟩ := List.lookup_eq_some_iff.mp h
    exact .inr ⟨(key, v), by rw [hsplit]; simp, rfl⟩

/-- The positions of a pack whose table is written as a tree. -/
theorem positions_spells {packed : Packed ι} {w : Tree Bytes} {depth : ℕ}
    (h : Spells heap sender (.table packed.values) w) (hheight : w.height ≤ depth) :
    ∃ ws, List.Forall₂ (Spells heap sender) (packed.positions heap) ws ∧
      ∀ x ∈ ws, x.height ≤ depth ∧ x.addresses ⊆ w.addresses := by
  match w, h with
  | .nil, h | .scalar _, h => rw [Spells] at h; cases h
  | .table address entries, h =>
    rw [Spells] at h
    obtain ⟨id, hid, -, hentries⟩ := h
    cases hid
    rw [Tree.height] at hheight
    have hposition : ∀ v ∈ packed.positions heap, ∃ x, Spells heap sender v x ∧ x.height ≤ depth ∧
        x.addresses ⊆ (Tree.table address entries).addresses := by
      intro v hv
      obtain ⟨i, -, rfl⟩ := List.mem_map.mp hv
      rcases Table.get_mem (heap packed.values) (index (i + 1)) with hnil | ⟨e, he, hitem⟩
      · exact ⟨.nil, by rw [Spells, hnil], Nat.zero_le _, List.nil_subset _⟩
      · obtain ⟨x, hx, hxheight, haddresses⟩ := hentries.item he
        rw [hitem] at hx
        exact ⟨x, hx, by omega, fun a ha => List.mem_append_right _ (haddresses ha)⟩
    exact exists_forall₂ hposition

end Pack

/-! What is accepted. -/

/-- The bytes are an encoding of a copied pack, its tables' entries in some order. -/
def Encodes (realm : Realm μ) (ts : List (Tree μ)) (bytes : Bytes) : Prop :=
  ∃ (ι : Type) (heap : Heap ι μ) (vs : List (Value ι)), List.Forall₂ (Same heap realm realm) vs ts ∧
    ∃ enough, ∀ stack ≥ enough, encodeValues heap realm stack vs = .ok bytes

section Encoded

variable {heap : Heap ι μ} {realm : Realm μ}

theorem spellsEntries_of_items {l : List (Value ι × Value ι)}
    (h : ∀ e ∈ l, ∃ k w, e.1 = .scalar k ∧ Spells heap realm e.2 w ∧ w.NoNegativeZeroKey)
    (hl : ∀ e ∈ l, ProperKey e.1) :
    ∃ entries, SpellsEntries heap realm l entries ∧ entries.NoNegativeZeroKey := by
  induction l with
  | nil => exact ⟨.nil, by rw [SpellsEntries], by rw [Entries.NoNegativeZeroKey]; trivial⟩
  | cons e l ih =>
    obtain ⟨k, w, hk, hw, hzero⟩ := h e List.mem_cons_self
    obtain ⟨entries, hentries, hzeros⟩ := ih (fun e he => h e (List.mem_cons_of_mem _ he))
      (fun e he => hl e (List.mem_cons_of_mem _ he))
    have hproper := hl e List.mem_cons_self
    rw [hk] at hproper
    refine ⟨.cons k w entries, ?_, ?_⟩
    · rw [SpellsEntries]
      exact ⟨e.2, l, by rw [← hk], hw, hentries⟩
    · rw [Entries.NoNegativeZeroKey]
      exact ⟨hproper.2, hzero, hzeros⟩

theorem SameRecord.spells {m record : Option μ} (h : SameRecord realm realm m record) :
    ∃ address, SpellsRecord realm m address := by
  match m, record, h with
  | none, none, _ => exact ⟨none, trivial⟩
  | some m, some n, ⟨address, hm, _⟩ => exact ⟨some address, hm⟩

mutual

/-- A value that equals a copy is written without negative zeros as keys. -/
theorem Same.spells {v : Value ι} {t : Tree μ} (h : Same heap realm realm v t) :
    ∃ w, Spells heap realm v w ∧ w.NoNegativeZeroKey := by
  match t, h with
  | .nil, h =>
    rw [Same] at h
    exact ⟨.nil, by rw [Spells, h], by rw [Tree.NoNegativeZeroKey]; trivial⟩
  | .scalar s, h =>
    rw [Same] at h
    exact ⟨.scalar s, by rw [Spells, h], by rw [Tree.NoNegativeZeroKey]; trivial⟩
  | .table record entries, h =>
    rw [Same] at h
    obtain ⟨id, l, rfl, hperm, hrecord, hentries⟩ := h
    obtain ⟨address, haddress⟩ := hrecord.spells
    obtain ⟨written, hwritten, hzeros⟩ := spellsEntries_of_items
      (fun e he => SameEntries.spells hentries e (hperm.mem_iff.mpr he)) (heap id).proper_keys
    refine ⟨.table address written, ?_, ?_⟩
    · rw [Spells]
      exact ⟨id, rfl, haddress, hwritten⟩
    · rw [Tree.NoNegativeZeroKey]
      exact hzeros

theorem SameEntries.spells {l : List (Value ι × Value ι)} {entries : Entries μ}
    (h : SameEntries heap realm realm l entries) :
    ∀ e ∈ l, ∃ k w, e.1 = .scalar k ∧ Spells heap realm e.2 w ∧ w.NoNegativeZeroKey := by
  match entries, h with
  | .nil, h =>
    rw [SameEntries] at h
    rw [h]
    exact nofun
  | .cons key item rest, h =>
    rw [SameEntries] at h
    obtain ⟨v, others, rfl, hitem, hrest⟩ := h
    intro e he
    rcases List.mem_cons.mp he with rfl | he
    · obtain ⟨w, hw⟩ := Same.spells hitem
      exact ⟨key, w, rfl, hw⟩
    · exact SameEntries.spells hrest e he

end

theorem exists_height_le (ws : List (Tree Bytes)) : ∃ n, ∀ w ∈ ws, w.height ≤ n := by
  induction ws with
  | nil => exact ⟨0, nofun⟩
  | cons w ws ih =>
    obtain ⟨n, hn⟩ := ih
    refine ⟨max w.height n, fun x hx => ?_⟩
    rcases List.mem_cons.mp hx with rfl | hx
    · exact Nat.le_max_left _ _
    · exact (hn x hx).trans (Nat.le_max_right _ _)

theorem Encodes.noNegativeZeroKey {ts : List (Tree μ)} {ws : List (Tree Bytes)}
    (h : Encodes realm ts (renderPack ws)) : ∀ w ∈ ws, w.NoNegativeZeroKey := by
  obtain ⟨ι, heap, vs, hsame, enough, hencode⟩ := h
  have hwritten : ∀ v ∈ vs, ∃ w, Spells heap realm v w ∧ w.NoNegativeZeroKey := by
    intro v hv
    obtain ⟨t, ht⟩ := exists_of_forall₂ hsame hv
    exact ht.spells
  obtain ⟨ws', hspells, hzeros⟩ := exists_forall₂ hwritten
  obtain ⟨n, hn⟩ := exists_height_le ws'
  have hboth := hencode (max enough n) (Nat.le_max_left _ _)
  rw [encodeValues_of_spells hspells (fun w hw => (hn w hw).trans (Nat.le_max_right _ _)), Except.ok.injEq] at hboth
  rw [← renderPack_injective hboth]
  exact hzeros

end Encoded

/-! A heap in which every copied table stands for itself. -/

def Tree.value : Tree μ → Value (Tree μ)
  | .nil => .nil
  | .scalar s => .scalar s
  | .table record entries => .table (.table record entries)

def Entries.toList : Entries μ → List (Value (Tree μ) × Value (Tree μ))
  | .nil => []
  | .cons key item rest => (.scalar key, item.value) :: rest.toList

def Tree.record : Tree μ → Option μ
  | .table record _ => record
  | _ => none

def Tree.entries : Tree μ → List (Value (Tree μ) × Value (Tree μ))
  | .table _ entries => entries.toList
  | _ => []

def Proper (l : List (Value ι × Value ι)) : Prop :=
  (l.map Prod.fst).Nodup ∧ ∀ e ∈ l, ProperKey e.1 ∧ e.2 ≠ .nil

open Classical in
noncomputable def layout (t : Tree μ) : Table (Tree μ) μ :=
  if h : Proper t.entries then
    ⟨t.entries, t.record, h.1, fun e he => (h.2 e he).1, fun e he => (h.2 e he).2⟩
  else ⟨[], t.record, .nil, nofun, nofun⟩

theorem layout_table (record : Option μ) {entries : Entries μ} (h : Proper entries.toList) :
    (layout (.table record entries)).entries = entries.toList ∧
      (layout (.table record entries)).metatable = record := by
  have hproper : Proper (Tree.table record entries).entries := h
  rw [layout, dif_pos hproper]
  exact ⟨rfl, rfl⟩

theorem key_proper (s : Scalar) (h : s ≠ .number .nan) : s.key ≠ .number .nan ∧ s.key ≠ negativeZero := by
  unfold Scalar.key
  split_ifs with hzero
  · decide
  · exact ⟨h, hzero⟩

section Layout

variable {realm : Realm μ}

theorem value_ne_nil {t : Tree μ} (h : t ≠ .nil) : t.value ≠ .nil := by
  cases t with
  | nil => exact absurd rfl h
  | scalar s => exact nofun
  | table record entries => exact nofun

/-- The entries a reader files are proper, and none was present before. -/
theorem Entries.copy_proper {entries : Entries Bytes} {copied : Entries μ} {levels : ℕ}
    {present : List Scalar} (h : entries.copy realm levels present = some copied) :
    Proper copied.toList ∧ ∀ k ∈ present, Value.scalar k ∉ copied.toList.map Prod.fst := by
  match entries, h with
  | .nil, h =>
    cases h
    exact ⟨⟨.nil, nofun⟩, nofun⟩
  | .cons key item rest, h =>
    obtain ⟨filed, t, others, -, hkey, hrest, rfl⟩ := copy_cons_inv h
    obtain ⟨⟨hnodup, hproper⟩, hpresent⟩ := rest.copy_proper hrest
    obtain ⟨k, hk, ht, hnan, hnew, rfl⟩ := entryKey_inv hkey
    cases hk
    refine ⟨⟨List.nodup_cons.mpr ⟨hpresent _ List.mem_cons_self, hnodup⟩, fun e he => ?_⟩, fun j hj => ?_⟩
    · rcases List.mem_cons.mp he with rfl | he
      · exact ⟨key_proper key hnan, value_ne_nil ht⟩
      · exact hproper e he
    · rw [Entries.toList, List.map_cons, List.mem_cons, not_or]
      refine ⟨fun heq => ?_, hpresent j (List.mem_cons_of_mem _ hj)⟩
      rw [Value.scalar.injEq] at heq
      exact hnew (heq ▸ hj)

theorem copyRecord_spec {address : Option Bytes} {record : Option μ}
    (h : copyRecord realm address = some record) :
    SpellsRecord realm record address ∧ SameRecord realm realm record record := by
  cases address with
  | none =>
    cases h
    exact ⟨trivial, trivial⟩
  | some address =>
    obtain ⟨found, hfound, rfl⟩ := copyRecord_some h
    have haddress := resolveRecord_address hfound
    exact ⟨haddress, address, haddress, haddress⟩

mutual

theorem Tree.copy_layout {w : Tree Bytes} {t : Tree μ} {levels : ℕ} (h : w.copy realm levels = some t)
    (hzero : w.NoNegativeZeroKey) : Spells layout realm t.value w ∧ Same layout realm realm t.value t := by
  match w, h with
  | .nil, h =>
    obtain ⟨n, rfl⟩ := copy_levels h
    cases h
    exact ⟨by rw [Spells]; rfl, by rw [Same]; rfl⟩
  | .scalar s, h =>
    obtain ⟨n, rfl⟩ := copy_levels h
    cases h
    exact ⟨by rw [Spells]; rfl, by rw [Same]; rfl⟩
  | .table address entries, h =>
    obtain ⟨n, copied, record, rfl, hentries, hrecord, rfl⟩ := copy_table_inv h
    rw [Tree.NoNegativeZeroKey] at hzero
    obtain ⟨hlayout, hmeta⟩ := layout_table record (entries.copy_proper hentries).1
    obtain ⟨hspells, hsame⟩ := Entries.copy_layout hentries hzero
    obtain ⟨hwritten, hkept⟩ := copyRecord_spec hrecord
    refine ⟨?_, ?_⟩
    · rw [Spells]
      refine ⟨.table record copied, rfl, ?_, ?_⟩
      · rw [hmeta]
        exact hwritten
      · rw [hlayout]
        exact hspells
    · rw [Same]
      refine ⟨.table record copied, copied.toList, rfl, ?_, ?_, hsame⟩
      · rw [hlayout]
      · rw [hmeta]
        exact hkept

theorem Entries.copy_layout {entries : Entries Bytes} {copied : Entries μ} {levels : ℕ}
    {present : List Scalar} (h : entries.copy realm levels present = some copied)
    (hzero : entries.NoNegativeZeroKey) :
    SpellsEntries layout realm copied.toList entries ∧ SameEntries layout realm realm copied.toList copied := by
  match entries, h with
  | .nil, h =>
    cases h
    exact ⟨by rw [SpellsEntries]; rfl, by rw [SameEntries]; rfl⟩
  | .cons key item rest, h =>
    obtain ⟨filed, t, others, hitem, hkey, hrest, rfl⟩ := copy_cons_inv h
    rw [Entries.NoNegativeZeroKey] at hzero
    obtain ⟨k, hk, -, -, -, rfl⟩ := entryKey_inv hkey
    cases hk
    rw [Scalar.key_eq hzero.1] at hrest ⊢
    obtain ⟨hspells, hsame⟩ := Tree.copy_layout hitem hzero.2.1
    obtain ⟨hspells', hsame'⟩ := Entries.copy_layout hrest hzero.2.2
    refine ⟨?_, ?_⟩
    · rw [SpellsEntries]
      exact ⟨t.value, others.toList, rfl, hspells, hspells'⟩
    · rw [SameEntries]
      exact ⟨t.value, others.toList, rfl, hsame, hsame'⟩

end

theorem encodes_of_copyPack {ws : List (Tree Bytes)} {ts : List (Tree μ)}
    (h : copyPack realm ws = some ts) (hzero : ∀ w ∈ ws, w.NoNegativeZeroKey) :
    Encodes realm ts (renderPack ws) := by
  have hall : List.Forall₂ (Spells layout realm) (ts.map Tree.value) ws ∧
      List.Forall₂ (Same layout realm realm) (ts.map Tree.value) ts := by
    induction ws generalizing ts with
    | nil =>
      cases h
      exact ⟨.nil, .nil⟩
    | cons w ws ih =>
      simp only [copyPack, List.mapM_cons, Option.bind_eq_bind, Option.bind_eq_some_iff,
        Option.pure_def, Option.some.injEq] at h
      obtain ⟨t, ht, ts, hts, rfl⟩ := h
      obtain ⟨hspells, hsame⟩ := Tree.copy_layout ht (hzero w List.mem_cons_self)
      obtain ⟨hspells', hsame'⟩ := ih hts (fun w hw => hzero w (List.mem_cons_of_mem _ hw))
      exact ⟨.cons hspells hspells', .cons hsame hsame'⟩
  obtain ⟨n, hn⟩ := exists_height_le ws
  refine ⟨Tree μ, layout, ts.map Tree.value, hall.2, n, fun stack hstack => ?_⟩
  exact encodeValues_of_spells hall.1 (fun w hw => (hn w hw).trans hstack)

end Layout

/-! The crossing. -/

/-- A pack that was validated is copied position by position. -/
theorem decode_encode [DecidableEq ι] [DecidableEq μ] {heap : Heap ι μ} {sender : Realm μ}
    {receiver : Realm ν} (other : Bytes → Option Number) {captures arguments packed : Packed ι}
    {transfer : TransferState ι μ} (h : validate heap sender captures arguments = .ok transfer)
    (hres : ∀ a ∈ transfer.addresses, ∃ n, resolveRecord receiver a = .ok n)
    (hpacked : packed = captures ∨ packed = arguments) :
    ∃ bytes ts, (∀ stack ≥ maxDepth, encode heap sender stack packed = .ok bytes) ∧
      decode other receiver bytes = .ok ts ∧ ts.length = packed.count ∧
      List.Forall₂ (Same heap sender receiver) (packed.positions heap) ts := by
  have hwritten : ∃ w, Spells heap sender (.table packed.values) w ∧ w.height ≤ maxDepth ∧
      w.addresses ⊆ transfer.addresses := by
    rw [validate] at h
    obtain ⟨mid, hmid, hlast⟩ := bind_eq_ok.mp h
    obtain ⟨hcaptures, harguments⟩ := And.intro (mapError_eq_ok.mp hmid) (mapError_eq_ok.mp hlast)
    obtain ⟨v, hv, hvheight, hvgrown⟩ := unsendable_spec hcaptures nofun
    obtain ⟨w, hw, hwheight, hwgrown⟩ := unsendable_spec harguments hvgrown.noted
    rcases hpacked with rfl | rfl
    · exact ⟨v, hv, hvheight, fun a ha => hwgrown.kept (hvgrown.found ha)⟩
    · exact ⟨w, hw, hwheight, hwgrown.found⟩
  obtain ⟨w, hw, hheight, haddresses⟩ := hwritten
  obtain ⟨ws, hws, hall⟩ := positions_spells hw hheight
  obtain ⟨ts, hcopy, hsame⟩ := copyPack_of_spells hws (fun x hx => (hall x hx).1)
    (fun x hx a ha => hres a (haddresses ((hall x hx).2 ha)))
  refine ⟨renderPack ws, ts, fun stack hstack => ?_, decode_eq_ok.mpr ⟨ws, rfl, hcopy⟩, ?_, hsame⟩
  · exact encodeValues_of_spells hws (fun x hx => (hall x hx).1.trans hstack)
  · rw [← hsame.length_eq, Packed.positions, List.length_map, List.length_range]

/-- The message of bytes that a state accepts writes no key as a negative zero. -/
def NoNegativeZeroKey (realm : Realm μ) (bytes : Bytes) : Prop :=
  ∀ ws, bytes = renderPack ws → (copyPack realm ws).isSome → ∀ w ∈ ws, w.NoNegativeZeroKey

theorem accepts_encodings_iff {realm : Realm μ} (other : Bytes → Option Number) (bytes : Bytes) :
    (∀ ts, decode other realm bytes = .ok ts → Encodes realm ts bytes) ↔ NoNegativeZeroKey realm bytes := by
  constructor
  · rintro h ws rfl hsome
    obtain ⟨ts, hts⟩ := Option.isSome_iff_exists.mp hsome
    exact (h ts (decode_eq_ok.mpr ⟨ws, rfl, hts⟩)).noNegativeZeroKey
  · intro h ts hts
    obtain ⟨ws, rfl, hcopy⟩ := decode_eq_ok.mp hts
    exact encodes_of_copyPack hcopy (h ws rfl (by rw [hcopy]; rfl))

/-- Validated packs survive the crossing, a reader stays within its bytes, and it accepts
only encodings of what it returns exactly when no key is written as a negative zero. -/
theorem worker_values_survive [DecidableEq ι] [DecidableEq μ] (heap : Heap ι μ) (sender : Realm μ)
    (receiver : Realm ν) (other : Bytes → Option Number) :
    (∀ captures arguments transfer, validate heap sender captures arguments = .ok transfer →
      (∀ a ∈ transfer.addresses, ∃ n, resolveRecord receiver a = .ok n) →
      ∀ packed, packed = captures ∨ packed = arguments →
        ∃ bytes ts, (∀ stack ≥ maxDepth, encode heap sender stack packed = .ok bytes) ∧
          decode other receiver bytes = .ok ts ∧ ts.length = packed.count ∧
          List.Forall₂ (Same heap sender receiver) (packed.positions heap) ts) ∧
    (∀ bytes levels cursor t next, 1 ≤ cursor →
      readValue other receiver bytes levels cursor = .ok (t, next) →
        cursor < next ∧ next ≤ bytes.length + 1) ∧
    ∀ bytes, (∀ ts, decode other receiver bytes = .ok ts → Encodes receiver ts bytes) ↔
      NoNegativeZeroKey receiver bytes := by
  refine ⟨fun captures arguments transfer h hres packed hpacked => decode_encode other h hres hpacked,
    fun bytes levels cursor t next hc h => ?_, accepts_encodings_iff other⟩
  obtain ⟨-, -, -, hlt, hend⟩ := readValue_sound hc h
  exact ⟨hlt, hend⟩

/-- A state without records. -/
def noRecords : Realm Unit := ⟨fun _ => none, fun _ => .ok none, fun _ _ => none⟩

/-- A table with `true` under the key `-0`. -/
def zeroKeyed : Tree Bytes := .table none (.cons negativeZero (.scalar (.boolean true)) .nil)

theorem renderPack_zeroKeyed : renderPack [zeroKeyed] = [49, 58, 116, 49, 58, 68, 50, 58, 45, 48, 84] := by
  simp [renderPack, zeroKeyed, Tree.render, Entries.render, Entries.length, writeTag, writeLength, writeScalar,
    writeString, negativeZero, formatFinite, Finite.zero, numeral, digit, TABLE, NUMBER, TRUE, colon, minus]

/-- The bytes `1:t1:D2:-0T` are accepted, and no encoding of what they are read as. -/
theorem negative_zero_key_accepted :
    ∃ ts, decode (fun _ => none) noRecords [49, 58, 116, 49, 58, 68, 50, 58, 45, 48, 84] = .ok ts ∧
      ¬ Encodes noRecords ts [49, 58, 116, 49, 58, 68, 50, 58, 45, 48, 84] := by
  rw [← renderPack_zeroKeyed]
  refine ⟨[.table none (.cons (.number (.finite (.zero false))) (.scalar (.boolean true)) .nil)],
    decode_eq_ok.mpr ⟨[zeroKeyed], rfl, rfl⟩, fun h => ?_⟩
  have hzero := h.noNegativeZeroKey zeroKeyed (List.mem_singleton_self _)
  rw [zeroKeyed, Tree.NoNegativeZeroKey, Entries.NoNegativeZeroKey] at hzero
  exact hzero.1 rfl

end Nupp.ValueCodec
