import Nupp.Lib.Loop
import Nupp.Lib.Row
import Mathlib.Data.Rat.Defs
import Mathlib.Data.List.Perm.Basic

/-! The pool of reusable instances of `util/internal/pool`. An instance is known by its
identity; what its fields hold is left out. -/

namespace Nupp

open Loop Row

namespace Pool

/-- A Lua value, as a table key: a table or a row of a struct is its identity. -/
inductive Value
  | nil
  | boolean (b : Bool)
  | number (q : ℚ)
  | string (text : String)
  | ref (id : ℕ)
  deriving DecidableEq

/-- What is passed where a count is expected. -/
inductive Count
  | number (q : ℚ)
  | notFinite
  | notNumber

/-- The count, if it is a nonnegative integer. -/
def Count.natural : Count → Option ℕ
  | .number q => if q < 0 || q.den ≠ 1 then none else some q.num.toNat
  | .notFinite => none
  | .notNumber => none

end Pool

/-- A pool with the heap it allocates from: identities from `heap` on are not taken.
Records have no backend. -/
structure Pool where
  growth : ℕ
  backend : Bool
  capacity : ℕ
  available : ℕ → Pool.Value
  values : ℕ → Pool.Value
  freecount : ℕ
  livecount : ℕ
  usedcount : ℕ
  pagecount : ℕ
  leases : Pool.Value → Option Bool
  heap : ℕ

namespace Pool

/-- New instances, whose identities nothing else has. -/
def allocate (heap count : ℕ) : List Value := (List.range' heap count).map .ref

def setAll (leases : Value → Option Bool) (flag : Bool) : List Value → Value → Option Bool
  | [] => leases
  | value :: list => setAll (Function.update leases value (some flag)) flag list

def addpage (self : Pool) : Pool :=
  let count := self.growth
  let created := allocate self.heap count
  let retained := self.capacity
  let available := fill self.available retained created
  let free := self.freecount
  { self with
    heap := self.heap + count
    values := fill self.values retained created
    available := fill available free created.reverse
    leases := setAll self.leases false created
    freecount := free + count
    pagecount := self.pagecount + 1
    capacity := retained + count }

/-- What an operation answers. -/
inductive Answer
  | value (v : Value)
  | done
  | raised (message : String)

def acquire (self : Pool) : Answer × Pool :=
  let self := if self.freecount = 0 then addpage self else self
  let count := self.freecount
  let value := self.available count
  (.value value, { self with
    freecount := count - 1
    livecount := self.livecount + 1
    usedcount := self.usedcount + 1
    leases := Function.update self.leases value (some true) })

/-- `stamped` says whether the value's metatable is the pool's declaration. -/
def release (self : Pool) (value : Value) (stamped : Bool) : Answer × Pool :=
  if self.livecount = 0 then (.raised "nupp: pool release without a live lease", self)
  else if !self.backend && !stamped then
    (.raised "nupp: pool release of a value the pool's declaration did not stamp", self)
  else if self.leases value ≠ some true then
    (.raised "nupp: pool release of a value not live in this pool", self)
  else
    let count := self.freecount + 1
    (.done, { self with
      leases := Function.update self.leases value (some false)
      livecount := self.livecount - 1
      available := Function.update self.available count value
      freecount := count })

def reserveStep (count : ℕ) (self : Pool) : Option (Pool ⊕ Pool) :=
  if self.freecount < count then some (.inl (addpage self)) else some (.inr self)

def reserve (self : Pool) (count : Count) : Option (Answer × Pool) :=
  match count.natural with
  | none => some (.raised "nupp: pool reserve count must be a nonnegative integer", self)
  | some n => (loop (reserveStep n) (n + 1) self).map fun self => (.done, self)

def reset (self : Pool) : Answer × Pool :=
  if 0 < self.livecount then
    (.raised s!"nupp: pool reset with {self.livecount} live leases", self)
  else
    (.done, { self with
      available := fill self.available 0 (front self.values self.capacity).reverse
      freecount := self.capacity
      usedcount := 0 })

/-- The constructor, on a heap of which the first identities are taken. -/
def new (heap : ℕ) (backend : Bool) (size : Option Count) : Option (Except String Pool) :=
  match (size.getD (.number 32)).natural with
  | none => some (.error "nupp: pool size must be a nonnegative integer")
  | some initial =>
    let self : Pool :=
      { growth := max 1 initial, backend := backend, capacity := 0, available := fun _ => .nil,
        values := fun _ => .nil, freecount := 0, livecount := 0, usedcount := 0, pagecount := 0,
        leases := fun _ => none, heap := heap }
    (reserve self (.number initial)).map fun r => .ok r.2

/-! Runs. -/

inductive Op
  | acquire
  | release (value : Value) (stamped : Bool)
  | reserve (count : Count)
  | reset
  /-- Other code allocates. -/
  | elsewhere (count : ℕ)

def step (self : Pool) : Op → Option (Answer × Pool)
  | .acquire => some (acquire self)
  | .release value stamped => some (release self value stamped)
  | .reserve count => reserve self count
  | .reset => some (reset self)
  | .elsewhere count => some (.done, { self with heap := self.heap + count })

/-- A pool and the operations it has gone through, with their answers. -/
inductive Reached : List (Op × Answer) → Pool → Prop
  | new {heap : ℕ} {backend : Bool} {size : Option Count} {self : Pool}
      (h : new heap backend size = some (.ok self)) : Reached [] self
  | step {history : List (Op × Answer)} {self self' : Pool} {op : Op} {answer : Answer}
      (h : Reached history self) (hstep : Pool.step self op = some (answer, self')) :
      Reached (history ++ [(op, answer)]) self'

/-- The values acquired and not released since, from the answers alone. -/
def held : List (Op × Answer) → List Value :=
  List.foldl (fun leased entry =>
    match entry with
    | (.acquire, .value v) => v :: leased
    | (.release v _, .done) => leased.erase v
    | _ => leased) []

end Pool

end Nupp

/-! A pool never leases one instance twice: what it retains is what is free and what is
leased, each once. -/

namespace Nupp.Pool

open Loop Row

/-- The pool and the values that are leased from it. -/
structure Sound (pool : Pool) (leased : List Value) : Prop where
  growth_pos : 1 ≤ pool.growth
  taken : ∀ v ∈ front pool.values pool.capacity, ∃ id < pool.heap, v = .ref id
  nodup : (front pool.values pool.capacity).Nodup
  split : (front pool.available pool.freecount ++ leased).Perm (front pool.values pool.capacity)
  live : pool.livecount = leased.length
  leases : ∀ v, pool.leases v = some true ↔ v ∈ leased

variable {pool : Pool} {leased : List Value}

theorem Sound.count (h : Sound pool leased) : pool.freecount + pool.livecount = pool.capacity := by
  have hlen := h.split.length_eq
  rw [List.length_append, length_front, length_front, ← h.live] at hlen
  exact hlen

theorem Sound.disjoint (h : Sound pool leased) :
    (front pool.available pool.freecount).Nodup ∧ leased.Nodup ∧
      ∀ v ∈ front pool.available pool.freecount, v ∉ leased := by
  obtain ⟨hfree, hleased, hne⟩ := List.nodup_append.mp (h.split.nodup_iff.mpr h.nodup)
  exact ⟨hfree, hleased, fun v hv hv' => hne v hv v hv' rfl⟩

/-! Growth. -/

theorem mem_allocate {heap count : ℕ} {v : Value} (h : v ∈ allocate heap count) :
    ∃ id, heap ≤ id ∧ id < heap + count ∧ v = .ref id := by
  obtain ⟨id, hid, rfl⟩ := List.mem_map.mp h
  obtain ⟨hlow, hhigh⟩ := List.mem_range'_1.mp hid
  exact ⟨id, hlow, hhigh, rfl⟩

theorem nodup_allocate (heap count : ℕ) : (allocate heap count).Nodup := by
  refine List.Nodup.map ?_ List.nodup_range'
  intro a b h
  cases h
  rfl

@[simp] theorem length_allocate (heap count : ℕ) : (allocate heap count).length = count := by
  simp [allocate]

theorem setAll_of_not_mem {leases : Value → Option Bool} {flag : Bool} {list : List Value} {v : Value}
    (h : v ∉ list) : setAll leases flag list v = leases v := by
  induction list generalizing leases with
  | nil => rfl
  | cons x list ih =>
    rw [List.mem_cons, not_or] at h
    rw [setAll, ih h.2, Function.update_of_ne h.1]

theorem setAll_of_mem {leases : Value → Option Bool} {flag : Bool} {list : List Value} {v : Value}
    (h : v ∈ list) : setAll leases flag list v = some flag := by
  induction list generalizing leases with
  | nil => cases h
  | cons x list ih =>
    by_cases hv : v ∈ list
    · exact ih hv
    · obtain rfl := (List.mem_cons.mp h).resolve_right hv
      rw [setAll, setAll_of_not_mem hv, Function.update_self]

theorem Sound.fresh (h : Sound pool leased) {v : Value} (hv : v ∈ allocate pool.heap pool.growth) :
    v ∉ front pool.values pool.capacity := by
  obtain ⟨id, hlow, -, rfl⟩ := mem_allocate hv
  intro hmem
  obtain ⟨id', hid', heq⟩ := h.taken _ hmem
  cases heq
  omega

theorem Sound.addpage (h : Sound pool leased) : Sound (addpage pool) leased := by
  have hvalues : front (Pool.addpage pool).values (Pool.addpage pool).capacity =
      front pool.values pool.capacity ++ allocate pool.heap pool.growth := by
    have hfill := front_fill (allocate pool.heap pool.growth) pool.values pool.capacity
    rwa [length_allocate] at hfill
  have hfree : front (Pool.addpage pool).available (Pool.addpage pool).freecount =
      front pool.available pool.freecount ++ (allocate pool.heap pool.growth).reverse := by
    have hfill := front_fill (allocate pool.heap pool.growth).reverse
      (fill pool.available pool.capacity (allocate pool.heap pool.growth)) pool.freecount
    have hbehind : pool.freecount ≤ pool.capacity := by
      have := h.count
      omega
    have hkept : front (fill pool.available pool.capacity (allocate pool.heap pool.growth)) pool.freecount =
        front pool.available pool.freecount := front_fill_of_le _ hbehind
    rw [List.length_reverse, length_allocate, hkept] at hfill
    exact hfill
  have hleased : ∀ v ∈ leased, v ∉ allocate pool.heap pool.growth := by
    intro v hv hnew
    exact h.fresh hnew (h.split.mem_iff.mp (List.mem_append_right _ hv))
  refine ⟨h.growth_pos, ?_, ?_, ?_, h.live, fun v => ?_⟩
  · rw [hvalues]
    intro v hv
    rcases List.mem_append.mp hv with hv | hv
    · obtain ⟨id, hid, rfl⟩ := h.taken v hv
      exact ⟨id, by dsimp only [Pool.addpage]; omega, rfl⟩
    · obtain ⟨id, -, hid, rfl⟩ := mem_allocate hv
      exact ⟨id, hid, rfl⟩
  · rw [hvalues]
    refine List.nodup_append.mpr ⟨h.nodup, nodup_allocate _ _, ?_⟩
    rintro v hv _ hnew rfl
    exact h.fresh hnew hv
  · rw [hvalues, hfree, List.append_assoc]
    have hmove : ((allocate pool.heap pool.growth).reverse ++ leased).Perm
        (leased ++ allocate pool.heap pool.growth) :=
      List.perm_append_comm.trans ((List.reverse_perm _).append_left leased)
    refine (hmove.append_left (front pool.available pool.freecount)).trans ?_
    rw [← List.append_assoc]
    exact h.split.append_right (allocate pool.heap pool.growth)
  · have hset : (Pool.addpage pool).leases v =
        setAll pool.leases false (allocate pool.heap pool.growth) v := rfl
    rw [hset]
    by_cases hv : v ∈ allocate pool.heap pool.growth
    · rw [setAll_of_mem hv]
      constructor
      · nofun
      · exact fun hl => absurd hv (hleased v hl)
    · rw [setAll_of_not_mem hv, h.leases]

/-! The operations. -/

/-- Taking the last free instance. -/
def takeLast (pool : Pool) : Pool :=
  { pool with
    freecount := pool.freecount - 1
    livecount := pool.livecount + 1
    usedcount := pool.usedcount + 1
    leases := Function.update pool.leases (pool.available pool.freecount) (some true) }

theorem Sound.takeLast (h : Sound pool leased) (hfree : 0 < pool.freecount) :
    pool.available pool.freecount ∉ leased ∧
      pool.available pool.freecount ∈ front pool.values pool.capacity ∧
      Sound (takeLast pool) (pool.available pool.freecount :: leased) := by
  obtain ⟨n, hn⟩ : ∃ n, pool.freecount = n + 1 := ⟨pool.freecount - 1, by omega⟩
  have hfront := front_succ pool.available n
  have hsplit := h.split
  have hlast : pool.available (n + 1) ∈ front pool.available (n + 1) := by
    rw [hfront]
    exact List.mem_append_right _ (List.mem_singleton_self _)
  rw [hn] at hsplit
  simp only [Pool.takeLast, hn]
  have hnew : pool.available (n + 1) ∉ leased := h.disjoint.2.2 _ (hn ▸ hlast)
  refine ⟨hnew, hsplit.mem_iff.mp (List.mem_append_left _ hlast), h.growth_pos, h.taken, h.nodup, ?_, ?_, ?_⟩
  · rwa [hfront, List.append_assoc, List.singleton_append] at hsplit
  · dsimp only
    rw [h.live, List.length_cons]
  · intro v
    dsimp only
    by_cases hv : v = pool.available (n + 1)
    · subst hv
      rw [Function.update_self]
      exact ⟨fun _ => List.mem_cons_self, fun _ => rfl⟩
    · rw [Function.update_of_ne hv, h.leases, List.mem_cons]
      exact ⟨.inr, fun hl => hl.resolve_left hv⟩

theorem acquire_sound (h : Sound pool leased) :
    ∃ v pool', acquire pool = (.value v, pool') ∧ v ∉ leased ∧ v ∈ front pool'.values pool'.capacity ∧
      Sound pool' (v :: leased) := by
  by_cases hempty : pool.freecount = 0
  · have hgrown := h.addpage
    have hfree : 0 < (addpage pool).freecount := by
      have := h.growth_pos
      dsimp only [addpage]
      omega
    obtain ⟨hnew, hmem, hsound⟩ := hgrown.takeLast hfree
    refine ⟨_, takeLast (addpage pool), ?_, hnew, hmem, hsound⟩
    simp only [acquire, if_pos hempty]
    rfl
  · obtain ⟨hnew, hmem, hsound⟩ := h.takeLast (Nat.pos_of_ne_zero hempty)
    refine ⟨_, takeLast pool, ?_, hnew, hmem, hsound⟩
    simp only [acquire, if_neg hempty]
    rfl

theorem release_sound (h : Sound pool leased) (value : Value) (stamped : Bool) :
    (∃ message, release pool value stamped = (.raised message, pool)) ∨
      ∃ pool', release pool value stamped = (.done, pool') ∧ value ∈ leased ∧
        Sound pool' (leased.erase value) := by
  unfold release
  split_ifs with hlive hstamp hleased
  · exact .inl ⟨_, rfl⟩
  · exact .inl ⟨_, rfl⟩
  · exact .inl ⟨_, rfl⟩
  · have hmem : value ∈ leased := (h.leases value).mp (not_not.mp hleased)
    have hnodup := h.disjoint.2.1
    refine .inr ⟨_, rfl, hmem, h.growth_pos, h.taken, h.nodup, ?_, ?_, ?_⟩
    · dsimp only
      rw [front_push, List.append_assoc, List.singleton_append]
      exact ((List.perm_cons_erase hmem).symm.append_left _).trans h.split
    · dsimp only
      rw [h.live, List.length_erase_of_mem hmem]
    · intro v
      dsimp only
      by_cases hv : v = value
      · subst hv
        rw [Function.update_self]
        constructor
        · nofun
        · exact fun hl => absurd hl (List.Nodup.not_mem_erase hnodup)
      · rw [Function.update_of_ne hv, h.leases, List.mem_erase_of_ne hv]

theorem reserve_sound (h : Sound pool leased) (count : Count) :
    (∃ message, reserve pool count = some (.raised message, pool)) ∨
      ∃ pool', reserve pool count = some (.done, pool') ∧ Sound pool' leased := by
  unfold reserve
  cases count.natural with
  | none => exact .inl ⟨_, rfl⟩
  | some n =>
    have hadvances : Advances (reserveStep n) (fun p => Sound p leased) (fun p => n - p.freecount)
        (fun p => Sound p leased) := by
      intro p hp
      unfold reserveStep
      by_cases hlt : p.freecount < n
      · refine .inl ⟨addpage p, if_pos hlt, hp.addpage, ?_⟩
        have := hp.growth_pos
        dsimp only [addpage]
        omega
      · exact .inr ⟨p, if_neg hlt, hp⟩
    obtain ⟨pool', hrun, hsound⟩ := loop_total hadvances (n := n + 1) h (by omega)
    exact .inr ⟨pool', by simp only [hrun, Option.map_some], hsound⟩

theorem reset_sound (h : Sound pool leased) :
    (∃ message, reset pool = (.raised message, pool)) ∨
      ∃ pool', reset pool = (.done, pool') ∧ Sound pool' leased := by
  unfold reset
  split_ifs with hlive
  · exact .inl ⟨_, rfl⟩
  · have hnone : leased = [] := List.length_eq_zero_iff.mp (by rw [← h.live]; omega)
    subst hnone
    have hfill := front_fill (front pool.values pool.capacity).reverse pool.available 0
    rw [List.length_reverse, length_front, Nat.zero_add, front_zero, List.nil_append] at hfill
    refine .inr ⟨_, rfl, h.growth_pos, h.taken, h.nodup, ?_, h.live, h.leases⟩
    dsimp only
    rw [hfill, List.append_nil]
    exact List.reverse_perm _

/-! Runs. -/

theorem new_sound {heap : ℕ} {backend : Bool} {size : Option Count}
    (h : new heap backend size = some (.ok pool)) : Sound pool [] := by
  unfold new at h
  split at h
  case h_1 => cases h
  case h_2 initial _ =>
    have hempty : ∀ growth, 1 ≤ growth → Sound
        { growth := growth, backend := backend, capacity := 0, available := fun _ => .nil,
          values := fun _ => .nil, freecount := 0, livecount := 0, usedcount := 0, pagecount := 0,
          leases := fun _ => none, heap := heap } [] := by
      intro growth hgrowth
      exact ⟨hgrowth, nofun, List.nodup_nil, List.Perm.refl _, rfl, fun v => ⟨nofun, nofun⟩⟩
    rcases reserve_sound (hempty _ (le_max_left 1 initial)) (.number initial) with ⟨m, hrun⟩ | ⟨p, hrun, hsound⟩
    · dsimp only at h
      rw [hrun] at h
      cases h
      exact hempty _ (le_max_left 1 initial)
    · dsimp only at h
      rw [hrun] at h
      cases h
      exact hsound

theorem held_snoc (history : List (Op × Answer)) (op : Op) (answer : Answer) :
    held (history ++ [(op, answer)]) =
      match (op, answer) with
      | (.acquire, .value v) => v :: held history
      | (.release v _, .done) => (held history).erase v
      | _ => held history := by
  rw [held, List.foldl_append]
  rfl

theorem reached_sound {history : List (Op × Answer)} (h : Reached history pool) : Sound pool (held history) := by
  induction h with
  | new h => exact new_sound h
  | @step history pool pool' op answer h hstep ih =>
    rw [held_snoc]
    cases op with
    | acquire =>
      obtain ⟨v, p, hrun, -, -, hsound⟩ := acquire_sound ih
      cases (Option.some.inj hstep).symm.trans hrun
      exact hsound
    | release value stamped =>
      rcases release_sound ih value stamped with ⟨m, hrun⟩ | ⟨p, hrun, -, hsound⟩
      · cases (Option.some.inj hstep).symm.trans hrun
        exact ih
      · cases (Option.some.inj hstep).symm.trans hrun
        exact hsound
    | reserve count =>
      rcases reserve_sound ih count with ⟨m, hrun⟩ | ⟨p, hrun, hsound⟩
      · cases Option.some.inj (hstep.symm.trans hrun)
        exact ih
      · cases Option.some.inj (hstep.symm.trans hrun)
        exact hsound
    | reset =>
      rcases reset_sound ih with ⟨m, hrun⟩ | ⟨p, hrun, hsound⟩
      · cases (Option.some.inj hstep).symm.trans hrun
        exact ih
      · cases (Option.some.inj hstep).symm.trans hrun
        exact hsound
    | elsewhere count =>
      cases hstep
      refine ⟨ih.growth_pos, fun v hv => ?_, ih.nodup, ih.split, ih.live, ih.leases⟩
      obtain ⟨id, hid, rfl⟩ := ih.taken v hv
      exact ⟨id, by dsimp only; omega, rfl⟩

end Nupp.Pool
