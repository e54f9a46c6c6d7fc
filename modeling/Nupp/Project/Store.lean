import Mathlib.Data.List.Nodup
import Mathlib.Data.List.Basic

/-! The keyed result store of `project/store`. A file holds one sealed body per
stamp; the codec and the file system are taken to round-trip, so a slot holds
its body as data. -/

namespace Nupp.ResultStore

variable {κ ν : Type*}

def keepStamps : ℕ := 2

def keepCold : ℕ := 2048

/-- What one stamp keeps in the file: keys in order, and the entries by key. -/
structure Body (κ ν : Type*) where
  order : List κ
  entries : κ → Option ν

structure Slot (κ ν : Type*) where
  stamp : String
  body : Body κ ν

/-- The slots of a cache file, newest first. -/
abbrev File (κ ν : Type*) := List (Slot κ ν)

def writeSealed (file : File κ ν) (stamp : String) (body : Body κ ν) : File κ ν :=
  ⟨stamp, body⟩ :: (file.filter fun slot => slot.stamp ≠ stamp).take (keepStamps - 1)

def unsealBody (file : File κ ν) (stamp : String) : Option (Body κ ν) :=
  (file.find? fun slot => slot.stamp = stamp).map (·.body)

theorem unsealBody_writeSealed (file : File κ ν) (stamp : String) (body : Body κ ν) :
    unsealBody (writeSealed file stamp body) stamp = some body := by
  simp [unsealBody, writeSealed]

structure Stats where
  gets : ℕ := 0
  hits : ℕ := 0
  puts : ℕ := 0

/-- An open store: the closure state behind `get`, `put` and `save`. -/
structure Store (κ ν : Type*) where
  stamp : String
  entries : κ → Option ν
  order : List κ
  live : κ → Bool
  dirty : Bool
  stats : Stats

/-- Opens the store kept under `stamp`, dropping ordered keys without an entry. -/
def openStore (file : File κ ν) (stamp : String) : Store κ ν :=
  match unsealBody file stamp with
  | some decoded =>
    { stamp, entries := decoded.entries,
      order := decoded.order.filter fun key => (decoded.entries key).isSome,
      live := fun _ => false, dirty := false, stats := {} }
  | none =>
    { stamp, entries := fun _ => none, order := [], live := fun _ => false, dirty := false,
      stats := {} }

variable [DecidableEq κ]

def get (s : Store κ ν) (key : κ) : Option ν × Store κ ν :=
  let s := { s with stats := { s.stats with gets := s.stats.gets + 1 } }
  match s.entries key with
  | none => (none, s)
  | some value =>
    (some value, { s with
      live := Function.update s.live key true
      stats := { s.stats with hits := s.stats.hits + 1 } })

def put (s : Store κ ν) (key : κ) (value : ν) : Store κ ν :=
  { s with
    order := if s.entries key = none then s.order ++ [key] else s.order
    entries := Function.update s.entries key (some value)
    live := Function.update s.live key true
    dirty := true
    stats := { s.stats with puts := s.stats.puts + 1 } }

/-- The loop of `save` over the untouched keys, `cold` of which are already kept. -/
def fillCold (live : κ → Bool) (cold : ℕ) : List κ → List κ
  | [] => []
  | key :: rest =>
    if ¬ live key ∧ cold < keepCold then key :: fillCold live (cold + 1) rest
    else fillCold live cold rest

/-- The order `save` writes: touched keys as they were reached, then untouched
keys from the end of the list backwards. -/
def keptOrder (s : Store κ ν) : List κ :=
  s.order.filter s.live ++ fillCold s.live 0 s.order.reverse

def keptBody (s : Store κ ν) : Body κ ν :=
  { order := keptOrder s
    entries := fun key => if key ∈ keptOrder s then s.entries key else none }

def save (file : File κ ν) (s : Store κ ν) : File κ ν :=
  if s.dirty then writeSealed file s.stamp (keptBody s) else file

inductive Op (κ ν : Type*)
  | get (key : κ)
  | put (key : κ) (value : ν)

def Op.key : Op κ ν → κ
  | .get key => key
  | .put key _ => key

def Op.isPut : Op κ ν → Bool
  | .get _ => false
  | .put _ _ => true

def step (s : Store κ ν) : Op κ ν → Store κ ν
  | .get key => (get s key).2
  | .put key value => put s key value

/-- One run: the gets and puts between opening the file and saving it. -/
abbrev Run (κ ν : Type*) := List (Op κ ν)

def perform (file : File κ ν) (stamp : String) (run : Run κ ν) : Store κ ν :=
  run.foldl step (openStore file stamp)

/-- The file left by a history of runs, newest run first. -/
def fileAfter (initial : File κ ν) (stamp : String) : List (Run κ ν) → File κ ν
  | [] => initial
  | run :: older =>
    let file := fileAfter initial stamp older
    save file (perform file stamp run)

end Nupp.ResultStore

/-! The invariant of an open store, and what a run of gets and puts leaves in
memory and in the file. -/

namespace Nupp.ResultStore

variable {κ ν : Type*}

/-- Every ordered key has an entry, every entry is ordered, and once. -/
structure Store.Valid (s : Store κ ν) : Prop where
  nodup : s.order.Nodup
  mem_iff : ∀ key, key ∈ s.order ↔ (s.entries key).isSome

structure Body.Valid (b : Body κ ν) : Prop where
  nodup : b.order.Nodup
  mem_iff : ∀ key, key ∈ b.order ↔ (b.entries key).isSome

theorem openStore_eq {file : File κ ν} {stamp : String} {body : Body κ ν}
    (h : unsealBody file stamp = some body) (hv : body.Valid) :
    openStore file stamp =
      { stamp, entries := body.entries, order := body.order, live := fun _ => false,
        dirty := false, stats := {} } := by
  have ho : (body.order.filter fun key => (body.entries key).isSome) = body.order :=
    List.filter_eq_self.mpr fun key hk => (hv.mem_iff key).mp hk
  simp [openStore, h, ho]

theorem openStore_none {file : File κ ν} {stamp : String} (h : unsealBody file stamp = none) :
    openStore file stamp =
      { stamp, entries := fun _ => none, order := [], live := fun _ => false, dirty := false,
        stats := {} } := by
  simp [openStore, h]

theorem openStore_live (file : File κ ν) (stamp : String) (key : κ) :
    (openStore file stamp).live key = false := by
  unfold openStore
  split <;> rfl

theorem openStore_dirty (file : File κ ν) (stamp : String) :
    (openStore file stamp).dirty = false := by
  unfold openStore
  split <;> rfl

theorem openStore_stamp (file : File κ ν) (stamp : String) :
    (openStore file stamp).stamp = stamp := by
  unfold openStore
  split <;> rfl

variable [DecidableEq κ]

def touches (run : Run κ ν) (key : κ) : Bool := run.any fun op => op.key = key

/-! What one operation does. -/

theorem step_entries_isSome (s : Store κ ν) (op : Op κ ν) (key : κ) :
    ((step s op).entries key).isSome ↔
      (s.entries key).isSome ∨ (op.isPut ∧ op.key = key) := by
  cases op with
  | get k => cases h : s.entries k <;> simp [step, get, h, Op.isPut]
  | put k v =>
    by_cases hk : k = key
    · subst hk
      simp [step, put, Op.isPut, Op.key]
    · simp [step, put, Op.key, hk, Function.update_of_ne (Ne.symm hk)]

theorem step_live (s : Store κ ν) (op : Op κ ν) (key : κ) :
    (step s op).live key ↔
      s.live key ∨ (op.key = key ∧ ((step s op).entries key).isSome) := by
  cases op with
  | get k =>
    by_cases hk : k = key
    · subst hk
      cases h : s.entries k <;> simp [step, get, h, Op.key]
    · cases h : s.entries k <;> simp [step, get, h, Op.key, hk, Function.update_of_ne (Ne.symm hk)]
  | put k v =>
    by_cases hk : k = key
    · subst hk
      simp [step, put, Op.key]
    · simp [step, put, Op.key, hk, Function.update_of_ne (Ne.symm hk)]

theorem step_order (s : Store κ ν) (op : Op κ ν) :
    (step s op).order = if op.isPut ∧ s.entries op.key = none then s.order ++ [op.key]
      else s.order := by
  cases op with
  | get k => cases h : s.entries k <;> simp [step, get, h, Op.isPut]
  | put k v => simp [step, put, Op.isPut, Op.key]

theorem step_dirty (s : Store κ ν) (op : Op κ ν) : (step s op).dirty = (s.dirty || op.isPut) := by
  cases op with
  | get k => cases h : s.entries k <;> simp [step, get, h, Op.isPut]
  | put k v => simp [step, put, Op.isPut]

theorem step_stamp (s : Store κ ν) (op : Op κ ν) : (step s op).stamp = s.stamp := by
  cases op with
  | get k => cases h : s.entries k <;> simp [step, get, h]
  | put k v => rfl

theorem Store.Valid.step {s : Store κ ν} (h : s.Valid) (op : Op κ ν) : (step s op).Valid := by
  constructor
  · rw [step_order]
    split
    · next hp =>
      have hk : op.key ∉ s.order := by rw [h.mem_iff, hp.2]; simp
      rw [← List.concat_eq_append]
      exact h.nodup.concat hk
    · exact h.nodup
  · intro key
    rw [step_entries_isSome, step_order, ← h.mem_iff]
    by_cases hp : op.isPut ∧ s.entries op.key = none
    · simp [hp, eq_comm]
    · rw [if_neg hp]
      constructor
      · exact .inl
      · rintro (hm | ⟨hput, rfl⟩)
        · exact hm
        · rw [h.mem_iff]
          exact Option.isSome_iff_ne_none.mpr fun he => hp ⟨hput, he⟩

/-! What a whole run does. -/

theorem foldl_valid {s : Store κ ν} (h : s.Valid) (run : Run κ ν) : (run.foldl step s).Valid := by
  induction run generalizing s with
  | nil => exact h
  | cons op rest ih => exact ih (h.step op)

theorem foldl_dirty (s : Store κ ν) (run : Run κ ν) :
    (run.foldl step s).dirty = (s.dirty || run.any Op.isPut) := by
  induction run generalizing s with
  | nil => simp
  | cons op rest ih => simp [ih, step_dirty, Bool.or_assoc]

theorem foldl_stamp (s : Store κ ν) (run : Run κ ν) : (run.foldl step s).stamp = s.stamp := by
  induction run generalizing s with
  | nil => rfl
  | cons op rest ih => simp [ih, step_stamp]

theorem touches_cons (op : Op κ ν) (rest : Run κ ν) (key : κ) :
    touches (op :: rest) key ↔ op.key = key ∨ touches rest key := by
  simp [touches]

theorem foldl_entries_isSome {s : Store κ ν} {run : Run κ ν} {key : κ}
    (h : ((run.foldl step s).entries key).isSome) : (s.entries key).isSome ∨ touches run key := by
  induction run generalizing s with
  | nil => exact .inl h
  | cons op rest ih =>
    rw [touches_cons]
    rcases ih h with hs | ht
    · rcases (step_entries_isSome s op key).mp hs with hs | ⟨_, hk⟩
      · exact .inl hs
      · exact .inr (.inl hk)
    · exact .inr (.inr ht)

theorem foldl_entries_mono {s : Store κ ν} (run : Run κ ν) {key : κ}
    (h : (s.entries key).isSome) : ((run.foldl step s).entries key).isSome := by
  induction run generalizing s with
  | nil => exact h
  | cons op rest ih => exact ih ((step_entries_isSome s op key).mpr (.inl h))

theorem foldl_entries_of_not_put {s : Store κ ν} {run : Run κ ν} (h : ¬ run.any Op.isPut) (key : κ) :
    ((run.foldl step s).entries key).isSome ↔ (s.entries key).isSome := by
  induction run generalizing s with
  | nil => rfl
  | cons op rest ih =>
    simp only [List.any_cons, Bool.or_eq_true, not_or] at h
    rw [List.foldl_cons, ih h.2, step_entries_isSome]
    simp [h.1]

/-- At the end of a run the live keys are the entries it named. -/
theorem foldl_live {s : Store κ ν} {run : Run κ ν} {key : κ} :
    (run.foldl step s).live key ↔
      s.live key ∨ (touches run key ∧ ((run.foldl step s).entries key).isSome) := by
  induction run generalizing s with
  | nil => simp [touches]
  | cons op rest ih =>
    rw [List.foldl_cons, ih, touches_cons, step_live]
    constructor
    · rintro ((hl | ⟨hk, hs⟩) | ⟨ht, hs⟩)
      · exact .inl hl
      · exact .inr ⟨.inl hk, foldl_entries_mono rest hs⟩
      · exact .inr ⟨.inr ht, hs⟩
    · rintro (hl | ⟨hk | ht, hs⟩)
      · exact .inl (.inl hl)
      · rcases foldl_entries_isSome hs with h | h
        · exact .inl (.inr ⟨hk, h⟩)
        · exact .inr ⟨h, hs⟩
      · exact .inr ⟨ht, hs⟩

theorem foldl_order_filter {s : Store κ ν} {run : Run κ ν} {p : κ → Bool}
    (hp : ∀ key, touches run key → p key = false) :
    (run.foldl step s).order.filter p = s.order.filter p := by
  induction run generalizing s with
  | nil => rfl
  | cons op rest ih =>
    rw [List.foldl_cons, ih fun key h => hp key ((touches_cons op rest key).mpr (.inr h)), step_order]
    split
    · rw [List.filter_append]
      simp [hp op.key ((touches_cons op rest op.key).mpr (.inl rfl))]
    · rfl

omit [DecidableEq κ] in
theorem fillCold_eq (live : κ → Bool) (cold : ℕ) (keys : List κ) :
    fillCold live cold keys = (keys.filter fun key => !live key).take (keepCold - cold) := by
  induction keys generalizing cold with
  | nil => simp [fillCold]
  | cons key rest ih =>
    by_cases hl : live key
    · simp [fillCold, hl, ih]
    · by_cases hc : cold < keepCold
      · obtain ⟨n, hn⟩ : ∃ n, keepCold - cold = n + 1 := ⟨keepCold - cold - 1, by omega⟩
        have hn' : keepCold - (cold + 1) = n := by omega
        simp [fillCold, hl, hc, ih, hn, hn']
      · simp [fillCold, hl, hc, ih, show keepCold - cold = 0 by omega]

/-- Among the entries, the live ones are those the run names. -/
theorem perform_live {file : File κ ν} {stamp : String} {run : Run κ ν} {key : κ}
    (h : ((perform file stamp run).entries key).isSome) :
    (perform file stamp run).live key = touches run key := by
  rw [Bool.eq_iff_iff, perform, foldl_live, openStore_live]
  change _ ∨ _ ∧ ((perform file stamp run).entries key).isSome ↔ _
  simp [h]

theorem perform_dirty (file : File κ ν) (stamp : String) (run : Run κ ν) :
    (perform file stamp run).dirty = run.any Op.isPut := by
  rw [perform, foldl_dirty, openStore_dirty, Bool.false_or]

theorem perform_valid {file : File κ ν} {stamp : String} (h : (openStore file stamp).Valid)
    (run : Run κ ν) : (perform file stamp run).Valid :=
  foldl_valid h run

theorem keptOrder_perform {file : File κ ν} {stamp : String} (h : (openStore file stamp).Valid)
    (run : Run κ ν) :
    keptOrder (perform file stamp run) =
      (perform file stamp run).order.filter (touches run) ++
        (((openStore file stamp).order.filter fun key => !touches run key).reverse.take keepCold) := by
  have hv := perform_valid h run
  have hlive : ∀ key ∈ (perform file stamp run).order,
      (perform file stamp run).live key = touches run key :=
    fun key hk => perform_live ((hv.mem_iff key).mp hk)
  have hcold : ((perform file stamp run).order.filter fun key => !touches run key) =
      (openStore file stamp).order.filter fun key => !touches run key :=
    foldl_order_filter fun key hk => by simp [hk]
  rw [keptOrder, fillCold_eq, List.filter_reverse, Nat.sub_zero, ← hcold]
  congr 1
  · exact List.filter_congr hlive
  · rw [List.filter_congr fun key hk => by rw [hlive key hk]]

omit [DecidableEq κ] in
theorem mem_keptOrder {s : Store κ ν} (hv : s.Valid) {key : κ} (h : key ∈ keptOrder s) :
    (s.entries key).isSome := by
  rw [← hv.mem_iff]
  rw [keptOrder, fillCold_eq, List.mem_append] at h
  rcases h with h | h
  · exact List.mem_of_mem_filter h
  · exact List.mem_reverse.mp (List.mem_of_mem_filter (List.mem_of_mem_take h))

theorem keptBody_valid {s : Store κ ν} (hv : s.Valid) : (keptBody s).Valid := by
  constructor
  · show (keptOrder s).Nodup
    rw [keptOrder, fillCold_eq, List.nodup_append]
    refine ⟨hv.nodup.filter _, ((List.nodup_reverse.mpr hv.nodup).filter _).take, ?_⟩
    rintro a ha b hb rfl
    have hl := (List.mem_filter.mp ha).2
    have hn := (List.mem_filter.mp (List.mem_of_mem_take hb)).2
    simp [hl] at hn
  · intro key
    by_cases hk : key ∈ keptOrder s
    · simp [keptBody, hk, mem_keptOrder hv hk]
    · simp [keptBody, hk]

/-- What reopening the file shows after a run: the kept body when the run put
something, and the old store otherwise. -/
theorem openStore_save {file : File κ ν} {stamp : String} (h : (openStore file stamp).Valid)
    (run : Run κ ν) (hput : run.any Op.isPut) :
    openStore (save file (perform file stamp run)) stamp =
      { stamp, entries := (keptBody (perform file stamp run)).entries,
        order := keptOrder (perform file stamp run), live := fun _ => false, dirty := false,
        stats := {} } := by
  have hs : (perform file stamp run).stamp = stamp := by
    rw [perform, foldl_stamp, openStore_stamp]
  rw [save, if_pos (by rwa [perform_dirty]), hs]
  exact openStore_eq (unsealBody_writeSealed _ _ _) (keptBody_valid (perform_valid h run))

theorem save_of_not_put {file : File κ ν} {stamp : String} {run : Run κ ν}
    (hput : ¬ run.any Op.isPut) : save file (perform file stamp run) = file := by
  rw [save, if_neg (by rwa [perform_dirty])]

end Nupp.ResultStore

/-! Eviction against recency, over whole histories of runs. `save` writes the
untouched keys newest first but takes them from the end of the reopened list,
where the previous save left its oldest ones. -/

namespace Nupp.ResultStore

variable {κ ν : Type*} [DecidableEq κ]

/-- The number of the last run that got or put `key`, counting from one. -/
def lastTouched : List (Run κ ν) → κ → ℕ
  | [], _ => 0
  | run :: older, key => if touches run key then older.length + 1 else lastTouched older key

theorem lastTouched_le (runs : List (Run κ ν)) (key : κ) : lastTouched runs key ≤ runs.length := by
  induction runs with
  | nil => simp [lastTouched]
  | cons run older ih =>
    simp only [lastTouched, List.length_cons]
    split
    · exact Nat.le_refl _
    · omega

theorem not_mem_take_reverse {α : Type*} {x : α} {xs : List α} {n : ℕ} (hnd : (x :: xs).Nodup)
    (hn : n ≤ xs.length) : x ∉ (x :: xs).reverse.take n := by
  rw [List.reverse_cons, List.take_append_of_le_length (by simpa using hn)]
  intro hm
  exact (List.nodup_cons.mp hnd).1 (List.mem_reverse.mp (List.mem_of_mem_take hm))

section History

variable (initial : File κ ν) (stamp : String)

/-- The entries of the reopened file that the run leaves untouched, in file order. -/
def untouched (run : Run κ ν) (older : List (Run κ ν)) : List κ :=
  (openStore (fileAfter initial stamp older) stamp).order.filter fun key => !touches run key

/-- The save of `run` after `older` drops no entry that was touched in a later
run than an untouched entry it keeps. -/
def RespectsRecency (run : Run κ ν) (older : List (Run κ ν)) : Prop :=
  let s := perform (fileAfter initial stamp older) stamp run
  let saved := openStore (fileAfter initial stamp (run :: older)) stamp
  ∀ dropped kept, (s.entries dropped).isSome → saved.entries dropped = none →
    (saved.entries kept).isSome → touches run kept = false →
    lastTouched (run :: older) dropped ≤ lastTouched (run :: older) kept

/-- Few enough entries are left untouched for all of them to be kept, or one
earlier run touched all of them last. -/
def Evictable (run : Run κ ν) (older : List (Run κ ν)) : Prop :=
  (untouched initial stamp run older).length ≤ keepCold ∨
    ∀ a ∈ untouched initial stamp run older, ∀ b ∈ untouched initial stamp run older,
      lastTouched older a = lastTouched older b

variable {initial : File κ ν} {stamp : String} (hinit : unsealBody initial stamp = none)

include hinit

theorem openStore_fileAfter_valid (runs : List (Run κ ν)) :
    (openStore (fileAfter initial stamp runs) stamp).Valid := by
  induction runs with
  | nil =>
    rw [fileAfter, openStore_none hinit]
    exact ⟨List.nodup_nil, by simp⟩
  | cons run older ih =>
    by_cases hput : run.any Op.isPut
    · rw [fileAfter, openStore_save ih run hput]
      have hv := keptBody_valid (perform_valid ih run)
      exact ⟨hv.nodup, hv.mem_iff⟩
    · rw [fileAfter, save_of_not_put hput]
      exact ih

/-- A run that puts something keeps, of the untouched entries, the last `keepCold`. -/
theorem saved_isSome_iff {run : Run κ ν} (older : List (Run κ ν)) (hput : run.any Op.isPut) {key : κ}
    (ht : touches run key = false) :
    ((openStore (fileAfter initial stamp (run :: older)) stamp).entries key).isSome ↔
      key ∈ (untouched initial stamp run older).reverse.take keepCold := by
  have hv := openStore_fileAfter_valid hinit (run :: older)
  rw [← hv.mem_iff, fileAfter, openStore_save (openStore_fileAfter_valid hinit older) run hput]
  simp only [keptOrder_perform (openStore_fileAfter_valid hinit older), List.mem_append,
    List.mem_filter, ht, and_false, false_or, Bool.false_eq_true]
  rfl

theorem mem_untouched_iff {run : Run κ ν} {older : List (Run κ ν)} {key : κ} :
    key ∈ untouched initial stamp run older ↔
      ((perform (fileAfter initial stamp older) stamp run).entries key).isSome ∧
        touches run key = false := by
  have hv := openStore_fileAfter_valid hinit older
  simp only [untouched, List.mem_filter, hv.mem_iff, Bool.not_eq_true']
  constructor
  · rintro ⟨hs, ht⟩
    exact ⟨foldl_entries_mono run hs, ht⟩
  · rintro ⟨hs, ht⟩
    refine ⟨(foldl_entries_isSome hs).resolve_right ?_, ht⟩
    simp [ht]

theorem dropped_untouched {run : Run κ ν} {older : List (Run κ ν)} (hput : run.any Op.isPut) {key : κ}
    (hs : ((perform (fileAfter initial stamp older) stamp run).entries key).isSome)
    (hd : (openStore (fileAfter initial stamp (run :: older)) stamp).entries key = none) :
    touches run key = false := by
  have hv := openStore_fileAfter_valid hinit (run :: older)
  have hn : key ∉ (openStore (fileAfter initial stamp (run :: older)) stamp).order := by
    rw [hv.mem_iff, hd]
    simp
  have hp := perform_valid (openStore_fileAfter_valid hinit older) run
  rw [fileAfter, openStore_save (openStore_fileAfter_valid hinit older) run hput] at hn
  simp only [keptOrder_perform (openStore_fileAfter_valid hinit older), List.mem_append,
    List.mem_filter, hp.mem_iff, hs, true_and, not_or] at hn
  exact Bool.eq_false_iff.mpr hn.1

theorem respects_of_evictable {run : Run κ ν} {older : List (Run κ ν)}
    (h : Evictable initial stamp run older) : RespectsRecency initial stamp run older := by
  intro dropped kept hs hd hk ht
  by_cases hput : run.any Op.isPut
  · have hdt := dropped_untouched hinit hput hs hd
    have hdm := (mem_untouched_iff hinit).mpr ⟨hs, hdt⟩
    have hkt := (saved_isSome_iff hinit older hput ht).mp hk
    have hkm := List.mem_reverse.mp (List.mem_of_mem_take hkt)
    simp only [lastTouched, hdt, ht, Bool.false_eq_true, if_false]
    rcases h with hlen | hsame
    · have hnone : dropped ∉ (untouched initial stamp run older).reverse.take keepCold := by
        rw [← saved_isSome_iff hinit older hput hdt]
        simp [hd]
      rw [List.take_of_length_le (by simpa using hlen)] at hnone
      exact absurd (List.mem_reverse.mpr hdm) hnone
    · exact Nat.le_of_eq (hsame dropped hdm kept hkm)
  · rw [fileAfter, save_of_not_put hput] at hd
    have he := (foldl_entries_of_not_put hput dropped).mp hs
    rw [hd] at he
    cases he

/-- After a run that put something the file lists the entries that run touched,
then at most `keepCold` entries it did not. -/
theorem order_blocks {run : Run κ ν} (older : List (Run κ ν)) (hput : run.any Op.isPut) :
    ∃ warm cold, (openStore (fileAfter initial stamp (run :: older)) stamp).order = warm ++ cold ∧
      (∀ key ∈ warm, lastTouched (run :: older) key = older.length + 1) ∧
      (∀ key ∈ cold, lastTouched (run :: older) key < older.length + 1) ∧
      cold.length ≤ keepCold := by
  have hv := openStore_fileAfter_valid hinit older
  refine ⟨(perform (fileAfter initial stamp older) stamp run).order.filter (touches run),
    (untouched initial stamp run older).reverse.take keepCold, ?_, ?_, ?_, ?_⟩
  · rw [fileAfter, openStore_save hv run hput]
    exact keptOrder_perform hv run
  · intro key hk
    simp [lastTouched, (List.mem_filter.mp hk).2]
  · intro key hk
    have ht := (List.mem_filter.mp (List.mem_reverse.mp (List.mem_of_mem_take hk))).2
    rw [Bool.not_eq_true'] at ht
    simp only [lastTouched, ht, Bool.false_eq_true, if_false]
    exact Nat.lt_succ_of_le (lastTouched_le older key)
  · exact List.length_take_le _ _

theorem evictable_of_respects {run last : Run κ ν} {older : List (Run κ ν)}
    (hput : run.any Op.isPut) (hlast : last.any Op.isPut)
    (h : RespectsRecency initial stamp run (last :: older)) :
    Evictable initial stamp run (last :: older) := by
  obtain ⟨warm, cold, horder, hwarm, hcold, hlen⟩ := order_blocks hinit older hlast
  set idle : κ → Bool := fun key => !touches run key with hidle
  have hu : untouched initial stamp run (last :: older) = warm.filter idle ++ cold.filter idle := by
    rw [untouched, horder, List.filter_append]
  have hnd : (untouched initial stamp run (last :: older)).Nodup :=
    (openStore_fileAfter_valid hinit (last :: older)).nodup.filter _
  by_contra hne
  simp only [Evictable, not_or, Nat.not_le] at hne
  obtain ⟨hmany, hdiff⟩ := hne
  cases hw : warm.filter idle with
  | nil =>
    have := List.length_filter_le idle cold
    rw [hu, hw, List.nil_append] at hmany
    omega
  | cons x xs =>
    rcases List.eq_nil_or_concat (cold.filter idle) with hc | ⟨ys, c, hc⟩
    · refine hdiff fun a ha b hb => ?_
      rw [hu, hc, List.append_nil] at ha hb
      rw [hwarm a (List.mem_of_mem_filter ha), hwarm b (List.mem_of_mem_filter hb)]
    · have hx := List.mem_filter.mp (show x ∈ warm.filter idle by rw [hw]; simp)
      have hcm := List.mem_filter.mp (show c ∈ cold.filter idle by rw [hc]; simp)
      have hxt : touches run x = false := by simpa [hidle] using hx.2
      have hct : touches run c = false := by simpa [hidle] using hcm.2
      have hxs := (mem_untouched_iff hinit).mp (show x ∈ untouched initial stamp run (last :: older) by
        rw [hu, hw]; simp)
      have hdropped : (openStore (fileAfter initial stamp (run :: last :: older)) stamp).entries x =
          none := by
        rw [← Option.not_isSome_iff_eq_none, saved_isSome_iff hinit _ hput hxt]
        rw [hu, hw, List.cons_append] at hnd hmany ⊢
        exact not_mem_take_reverse hnd (Nat.le_of_lt_succ hmany)
      have hkept : ((openStore (fileAfter initial stamp (run :: last :: older)) stamp).entries
          c).isSome := by
        rw [saved_isSome_iff hinit _ hput hct, hu, hc, List.concat_eq_append, ← List.append_assoc,
          List.reverse_append]
        exact List.mem_cons_self
      have hle := h x c hxs.1 hdropped hkept hct
      simp only [lastTouched, hxt, hct, Bool.false_eq_true, if_false] at hle
      have h1 := hwarm x hx.1
      have h2 := hcold c hcm.1
      simp only [lastTouched] at h1 h2
      omega

end History

section Newest

/-- A run that puts `()` under each key. -/
def putAll (keys : List ℕ) : Run ℕ Unit := keys.map fun key => .put key ()

theorem any_isPut_putAll {keys : List ℕ} (h : keys ≠ []) : (putAll keys).any Op.isPut := by
  obtain ⟨key, rest, rfl⟩ := List.exists_cons_of_ne_nil h
  rfl

theorem touches_putAll (keys : List ℕ) (key : ℕ) : touches (putAll keys) key = decide (key ∈ keys) := by
  rw [Bool.eq_iff_iff, decide_eq_true_eq]
  induction keys with
  | nil => simp [touches, putAll]
  | cons k rest ih =>
    rw [List.mem_cons, ← ih, @eq_comm _ key k]
    exact touches_cons (.put k ()) (putAll rest) key

theorem foldl_putAll_order {s : Store ℕ Unit} (hs : s.Valid) {keys : List ℕ} (hnd : keys.Nodup)
    (hfresh : ∀ key ∈ keys, key ∉ s.order) :
    ((putAll keys).foldl step s).order = s.order ++ keys := by
  induction keys generalizing s with
  | nil => simp [putAll]
  | cons key rest ih =>
    have hk : s.entries key = none := by
      rw [← Option.not_isSome_iff_eq_none, ← hs.mem_iff]
      exact hfresh key (by simp)
    have ho : (step s (.put key ())).order = s.order ++ [key] := by
      rw [step_order]
      simp [Op.isPut, Op.key, hk]
    have hd := List.nodup_cons.mp hnd
    show ((putAll rest).foldl step (step s (.put key ()))).order = _
    rw [ih (hs.step _) hd.2, ho, List.append_assoc, List.singleton_append]
    intro k hm
    rw [ho, List.mem_append, List.mem_singleton, not_or]
    exact ⟨hfresh k (List.mem_cons_of_mem _ hm), fun he => hd.1 (he ▸ hm)⟩

theorem openStore_nil_order (stamp : String) :
    (openStore ([] : File ℕ Unit) stamp).order = [] := rfl

/-- A file whose runs put disjoint fresh keys lists the last run's keys first. -/
theorem order_putAll {older : List (Run ℕ Unit)} {keys : List ℕ} (hne : keys ≠ []) (hnd : keys.Nodup)
    (hfresh : ∀ key ∈ keys, key ∉ (openStore (fileAfter [] "" older) "").order) :
    (openStore (fileAfter [] "" (putAll keys :: older)) "").order =
      keys ++ (openStore (fileAfter [] "" older) "").order.reverse.take keepCold := by
  have hv : (openStore (fileAfter ([] : File ℕ Unit) "" older) "").Valid :=
    openStore_fileAfter_valid rfl older
  rw [fileAfter, openStore_save hv _ (any_isPut_putAll hne)]
  show keptOrder (perform (fileAfter [] "" older) "" (putAll keys)) = _
  rw [keptOrder_perform hv, perform, foldl_putAll_order hv hnd hfresh, List.filter_append]
  have hold : (openStore (fileAfter [] "" older) "").order.filter (touches (putAll keys)) = [] := by
    rw [List.filter_eq_nil_iff]
    intro key hk ht
    rw [touches_putAll, decide_eq_true_eq] at ht
    exact hfresh key ht hk
  have hnew : keys.filter (touches (putAll keys)) = keys :=
    List.filter_eq_self.mpr fun key hk => by simp [touches_putAll, hk]
  have hcold : ((openStore (fileAfter [] "" older) "").order.filter
      fun key => !touches (putAll keys) key) = (openStore (fileAfter [] "" older) "").order :=
    List.filter_eq_self.mpr fun key hk => by
      simpa [touches_putAll] using fun hm => hfresh key hm hk
  rw [hold, hnew, hcold, List.nil_append]

end Newest

end Nupp.ResultStore
