import Mathlib.Data.Finset.Card
import Nupp.Project.QueryRun

/-! Over a finite family of queries every read ends, cycles and failures included; it leaves the
frames and the marks as it found them, and an entry marked current only where a read returned. -/

namespace Nupp.Query

open Reads

variable {K V E : Type*}

section Calls

/-- A read: the query and the database it is asked of. -/
abbrev Call (K V : Type*) := Dep K × Q K V

variable [DecidableEq K] [DecidableEq V]

/-- The reads a computation makes itself. -/
inductive Makes (self : Getter K V E) : Comp (Dep K) V (Failure E) → Q K V → Call K V → Prop
  | here {d : Dep K} {cont : Except (Failure E) V → Comp (Dep K) V (Failure E)} {q : Q K V} :
      Makes self (.read d cont) q (d, q)
  | later {d : Dep K} {cont : Except (Failure E) V → Comp (Dep K) V (Failure E)} {q q' : Q K V}
      {r : Except (Failure E) V} {call : Call K V} (h : self d q = some (r, q'))
      (hc : Makes self (cont r) q' call) : Makes self (.read d cont) q call

/-- The reads that validation makes itself. -/
inductive Checks (self : Getter K V E) (verifiedAt : ℕ) : List (Dep K) → Q K V → Call K V → Prop
  | here {d : Dep K} {rest : List (Dep K)} {q : Q K V} (hi : q.inputs d = none) :
      Checks self verifiedAt (d :: rest) q (d, q)
  | later {d : Dep K} {rest : List (Dep K)} {q q' : Q K V} {changedAt : ℕ} {call : Call K V}
      (h : depChangedAt self d q = some (.ok changedAt, q')) (hle : changedAt ≤ verifiedAt)
      (hc : Checks self verifiedAt rest q' call) : Checks self verifiedAt (d :: rest) q call

/-- The database in which the definition of a query runs. -/
def starting (q : Q K V) (d : Dep K) : Q K V :=
  enter { q with stats := Function.update q.stats d.name (q.stats d.name + 1) } d

/-- The reads that a read makes itself. -/
inductive Calls (prog : Program K V E) (self : Getter K V E) : Call K V → Call K V → Prop
  | validation {d : Dep K} {q : Q K V} {entry : Memo K V} {call : Call K V}
      (hm : q.memo d = some entry) (ha : q.active d = false)
      (hc : Checks self entry.verifiedAt entry.deps (enter q d) call) : Calls prog self (d, q) call
  | first {d : Dep K} {q : Q K V} {df : Def K V E} {call : Call K V}
      (hd : prog.defs d.name = some df) (hm : q.memo d = none) (ha : q.active d = false)
      (hc : Makes self (df.fn d.key) (starting q d) call) : Calls prog self (d, q) call
  | again {d : Dep K} {q q' : Q K V} {df : Def K V E} {entry : Memo K V} {call : Call K V}
      (hd : prog.defs d.name = some df) (hm : q.memo d = some entry) (ha : q.active d = false)
      (hv : validateDeps self entry.verifiedAt entry.deps (enter q d) = some (.ok false, q'))
      (hc : Makes self (df.fn d.key) (starting (leave q' d) d) call) : Calls prog self (d, q) call

/-- The reads under way in a read, at any depth, each with the depth left to it. -/
inductive Within (prog : Program K V E) : ℕ → Call K V → ℕ → Call K V → Prop
  | refl {n : ℕ} {call : Call K V} : Within prog n call n call
  | step {n m : ℕ} {call call' call'' : Call K V} (h : Calls prog (get prog n) call call')
      (hw : Within prog n call' m call'') : Within prog (n + 1) call m call''

/-- An entry that a read under way left when it returned. -/
def Left (prog : Program K V E) (n : ℕ) (call : Call K V) (x : Dep K) (m : Memo K V) : Prop :=
  ∃ k q v q', Within prog n call k (x, q) ∧ get prog k x q = some (.ok v, q') ∧ q'.memo x = some m

theorem Left.step {prog : Program K V E} {n : ℕ} {call call' : Call K V} {x : Dep K} {m : Memo K V}
    (h : Calls prog (get prog n) call call') (hleft : Left prog n call' x m) :
    Left prog (n + 1) call x m := by
  obtain ⟨k, q, v, q', hw, hget, hm⟩ := hleft
  exact ⟨k, q, v, q', .step h hw, hget, hm⟩

end Calls

section Family

/-- The queries a computation may read. -/
inductive Mentions : Comp (Dep K) V (Failure E) → Dep K → Prop
  | here {d : Dep K} {cont : Except (Failure E) V → Comp (Dep K) V (Failure E)} :
      Mentions (.read d cont) d
  | later {d e : Dep K} {cont : Except (Failure E) V → Comp (Dep K) V (Failure E)}
      (r : Except (Failure E) V) (h : Mentions (cont r) e) : Mentions (.read d cont) e

/-- The definitions of a family read only the family. -/
def Family (prog : Program K V E) (S : Finset (Dep K)) : Prop :=
  ∀ d ∈ S, ∀ df, prog.defs d.name = some df → ∀ e, Mentions (df.fn d.key) e → e ∈ S

/-- What a family recorded are reads of the family. -/
def Closed (S : Finset (Dep K)) (q : Q K V) : Prop :=
  ∀ d ∈ S, ∀ m, q.memo d = some m → ∀ e ∈ m.deps, e ∈ S

/-- How many queries of a family are not running. -/
def waiting (S : Finset (Dep K)) (q : Q K V) : ℕ := (S.filter fun d => q.active d = false).card

/-- What reads keep: the clock, the inputs and marks, and the entries of what is running. -/
structure Keeps (S : Finset (Dep K)) (q q' : Q K V) : Prop where
  revision : q'.revision = q.revision
  inputs : q'.inputs = q.inputs
  active : q'.active = q.active
  frame : ∀ a, q.active a = true → q'.memo a = q.memo a
  closed : Closed S q'

/-- The entries marked current that were not there before are of the kind `P`. -/
def Fresh (P : Dep K → Memo K V → Prop) (q q' : Q K V) : Prop :=
  ∀ x m, q'.memo x = some m → m.verifiedAt = q'.revision → q.memo x = some m ∨ P x m

variable {S : Finset (Dep K)} {q q' q'' : Q K V} {P P' : Dep K → Memo K V → Prop}

theorem Keeps.refl (h : Closed S q) : Keeps S q q := ⟨rfl, rfl, rfl, fun _ _ => rfl, h⟩

theorem Keeps.trans (h : Keeps S q q') (h' : Keeps S q' q'') : Keeps S q q'' where
  revision := h'.revision.trans h.revision
  inputs := h'.inputs.trans h.inputs
  active := h'.active.trans h.active
  frame a ha := (h'.frame a (by rw [h.active, ha])).trans (h.frame a ha)
  closed := h'.closed

theorem Keeps.waiting (h : Keeps S q q') : waiting S q' = waiting S q := by
  rw [Query.waiting, Query.waiting, h.active]

theorem Fresh.refl : Fresh P q q := fun _ _ hm _ => .inl hm

theorem Fresh.mono (h : Fresh P q q') (hP : ∀ x m, P x m → P' x m) : Fresh P' q q' :=
  fun x m hm hv => (h x m hm hv).imp_right (hP x m)

theorem Fresh.trans (h : Fresh P q q') (h' : Fresh P q' q'') (hr : q''.revision = q'.revision) :
    Fresh P q q'' := by
  intro x m hm hv
  rcases h' x m hm hv with hm' | hp
  · exact h x m hm' (hv.trans hr)
  · exact .inr hp

end Family

section Reads

variable [DecidableEq K] [DecidableEq V] {S : Finset (Dep K)} {prog : Program K V E}
  {q q' q'' : Q K V} {d : Dep K}

/-- What a read of `n` levels leaves. -/
structure Unwound (S : Finset (Dep K)) (prog : Program K V E) (n : ℕ) (d : Dep K) (q : Q K V)
    (r : Except (Failure E) V) (q' : Q K V) : Prop where
  keeps : Keeps S q q'
  stack : q'.stack = match r with
    | .ok _ => (record q d).stack
    | .error _ => q.stack
  raised : ∀ e, r = .error e → prog.defs d.name ≠ none →
    ∀ m, q'.memo d = some m → m.verifiedAt ≠ q'.revision
  fresh : Fresh (Left prog n (d, q)) q q'

/-- Reads end when at most `j` queries of the family are not running. -/
def Ends (S : Finset (Dep K)) (prog : Program K V E) (j : ℕ) : Prop :=
  ∀ d ∈ S, ∀ q, Closed S q → waiting S q ≤ j →
    ∃ r q', ∀ n, j < n → get prog n d q = some (r, q') ∧ Unwound S prog n d q r q'

omit [DecidableEq K] [DecidableEq V] in
theorem Keeps.record (h : Keeps S q q') (d : Dep K) : Keeps S q (record q' d) where
  revision := by rw [record_revision, h.revision]
  inputs := by rw [record_inputs, h.inputs]
  active := by rw [record_active, h.active]
  frame a ha := by rw [record_memo, h.frame a ha]
  closed := by
    intro a ha m hm
    rw [record_memo] at hm
    exact h.closed a ha m hm

/-- A read leaves the frames below the innermost, which lists it if it returned. -/
theorem Unwound.frames {n : ℕ} {r : Except (Failure E) V} {top : List (Dep K)}
    {rest : List (List (Dep K))} (h : Unwound S prog n d q r q') (hd : d ∈ S)
    (hs : q.stack = top :: rest) :
    ∃ reads, (∀ e ∈ reads, e ∈ S) ∧ q'.stack = (top ++ reads) :: rest := by
  have hstack := h.stack
  cases r with
  | ok v => exact ⟨[d], by simpa using hd, by simpa [record, hs] using hstack⟩
  | error e => exact ⟨[], by simp, by simpa [hs] using hstack⟩

variable {j : ℕ} (ih : Ends S prog j)

include ih

/-- A computation ends, by induction on its reads. -/
theorem runFn_ends (c : Comp (Dep K) V (Failure E)) (hS : ∀ e, Mentions c e → e ∈ S)
    (hclosed : Closed S q) (hj : waiting S q ≤ j) {top : List (Dep K)} {rest : List (List (Dep K))}
    (hs : q.stack = top :: rest) :
    ∃ r q' reads, (∀ e ∈ reads, e ∈ S) ∧ q'.stack = (top ++ reads) :: rest ∧ Keeps S q q' ∧
      ∀ n, j < n → runFn (get prog n) c q = some (r, q') ∧
        Fresh (fun x m => ∃ call, Makes (get prog n) c q call ∧ Left prog n call x m) q q' := by
  induction c generalizing q top with
  | ret v => exact ⟨.ok v, q, [], by simp, by simpa using hs, .refl hclosed, fun n _ => ⟨rfl, .refl⟩⟩
  | raise e =>
    exact ⟨.error e, q, [], by simp, by simpa using hs, .refl hclosed, fun n _ => ⟨rfl, .refl⟩⟩
  | read d cont ihc =>
    have hd : d ∈ S := hS d .here
    obtain ⟨r, q₁, hread⟩ := ih d hd q hclosed hj
    have hkeeps := (hread (j + 1) (Nat.lt_succ_self j)).2.keeps
    obtain ⟨read, hreadS, hs₁⟩ := (hread (j + 1) (Nat.lt_succ_self j)).2.frames hd hs
    obtain ⟨r', q', reads, hreadsS, hs', hkeeps', hrun⟩ :=
      ihc r (fun e he => hS e (.later r he)) hkeeps.closed (hkeeps.waiting ▸ hj) hs₁
    refine ⟨r', q', read ++ reads, ?_, by rw [hs', List.append_assoc], hkeeps.trans hkeeps',
      fun n hn => ?_⟩
    · intro e he
      rcases List.mem_append.mp he with he | he
      · exact hreadS e he
      · exact hreadsS e he
    · obtain ⟨hget, hunwound⟩ := hread n hn
      obtain ⟨hrest, hfresh⟩ := hrun n hn
      refine ⟨by simp only [runFn, hget, hrest], ?_⟩
      have hfirst : Fresh (fun x m =>
          ∃ call, Makes (get prog n) (.read d cont) q call ∧ Left prog n call x m) q q₁ :=
        hunwound.fresh.mono fun x m hleft => ⟨(d, q), .here, hleft⟩
      refine hfirst.trans (hfresh.mono ?_) hkeeps'.revision
      rintro x m ⟨call, hmakes, hleft⟩
      exact ⟨call, .later hget hmakes, hleft⟩

theorem depChangedAt_ends (hd : d ∈ S) (hclosed : Closed S q) (hj : waiting S q ≤ j)
    {top : List (Dep K)} {rest : List (List (Dep K))} (hs : q.stack = top :: rest) :
    ∃ r q' top', q'.stack = top' :: rest ∧ Keeps S q q' ∧
      ∀ n, j < n → depChangedAt (get prog n) d q = some (r, q') ∧
        Fresh (fun x m => q.inputs d = none ∧ Left prog n (d, q) x m) q q' := by
  cases hi : q.inputs d with
  | some inp =>
    exact ⟨.ok inp.changedAt, q, top, hs, .refl hclosed,
      fun n _ => ⟨by simp [depChangedAt, hi], .refl⟩⟩
  | none =>
    obtain ⟨r, q', hread⟩ := ih d hd q hclosed hj
    have hkeeps := (hread (j + 1) (Nat.lt_succ_self j)).2.keeps
    obtain ⟨reads, -, hs'⟩ := (hread (j + 1) (Nat.lt_succ_self j)).2.frames hd hs
    refine ⟨r.map fun _ => ((q'.memo d).map Memo.changedAt).getD q'.revision, q', top ++ reads, hs',
      hkeeps, fun n hn => ?_⟩
    obtain ⟨hget, hunwound⟩ := hread n hn
    refine ⟨?_, hunwound.fresh.mono fun x m hleft => ⟨rfl, hleft⟩⟩
    cases r with
    | error e => simp [depChangedAt, hi, hget, Except.map]
    | ok v => cases hm : q'.memo d <;> simp [depChangedAt, hi, hget, hm, Except.map]

/-- Validation ends, by induction on the recorded reads. -/
theorem validateDeps_ends (verifiedAt : ℕ) (deps : List (Dep K)) (hdeps : ∀ e ∈ deps, e ∈ S)
    (hclosed : Closed S q) (hj : waiting S q ≤ j) {top : List (Dep K)} {rest : List (List (Dep K))}
    (hs : q.stack = top :: rest) :
    ∃ r q' top', q'.stack = top' :: rest ∧ Keeps S q q' ∧
      ∀ n, j < n → validateDeps (get prog n) verifiedAt deps q = some (r, q') ∧
        Fresh (fun x m =>
          ∃ call, Checks (get prog n) verifiedAt deps q call ∧ Left prog n call x m) q q' := by
  induction deps generalizing q top with
  | nil => exact ⟨.ok true, q, top, hs, .refl hclosed, fun n _ => ⟨rfl, .refl⟩⟩
  | cons d deps ihd =>
    have hd : d ∈ S := hdeps d List.mem_cons_self
    obtain ⟨r, q₁, top₁, hs₁, hkeeps, hdep⟩ := depChangedAt_ends ih hd hclosed hj hs
    have hfirst : ∀ n, j < n → Fresh (fun x m =>
        ∃ call, Checks (get prog n) verifiedAt (d :: deps) q call ∧ Left prog n call x m) q q₁ :=
      fun n hn => (hdep n hn).2.mono fun x m hleft => ⟨(d, q), .here hleft.1, hleft.2⟩
    cases r with
    | error e =>
      exact ⟨.error e, q₁, top₁, hs₁, hkeeps,
        fun n hn => ⟨by simp only [validateDeps, (hdep n hn).1], hfirst n hn⟩⟩
    | ok changedAt =>
      by_cases hlt : verifiedAt < changedAt
      · exact ⟨.ok false, q₁, top₁, hs₁, hkeeps,
          fun n hn => ⟨by simp only [validateDeps, (hdep n hn).1, if_pos hlt], hfirst n hn⟩⟩
      · obtain ⟨r', q', top', hs', hkeeps', hrest⟩ := ihd
          (fun e he => hdeps e (List.mem_cons_of_mem _ he)) hkeeps.closed (hkeeps.waiting ▸ hj) hs₁
        refine ⟨r', q', top', hs', hkeeps.trans hkeeps', fun n hn => ?_⟩
        obtain ⟨hvalid, hfresh⟩ := hrest n hn
        refine ⟨by simp only [validateDeps, (hdep n hn).1, if_neg hlt, hvalid], ?_⟩
        refine (hfirst n hn).trans (hfresh.mono ?_) hkeeps'.revision
        rintro x m ⟨call, hchecks, hleft⟩
        exact ⟨call, .later (hdep n hn).1 (Nat.le_of_not_lt hlt) hchecks, hleft⟩

omit ih [DecidableEq V] in
/-- What a query keeps while it runs, it keeps when its frame is closed. -/
theorem Keeps.leave {q₀ : Q K V} (h : Keeps S q₀ q') (hr : q₀.revision = q.revision)
    (hi : q₀.inputs = q.inputs) (hm : q₀.memo = q.memo)
    (ha : q₀.active = Function.update q.active d true) (hd : q.active d = false) :
    Keeps S q (leave q' d) where
  revision := h.revision.trans hr
  inputs := h.inputs.trans hi
  active := by
    simp only [Query.leave, h.active, ha, Function.update_idem]
    rw [← hd, Function.update_eq_self]
  frame a hact := by
    have hrun : q₀.active a = true := by
      by_cases had : a = d
      · simp [ha, had]
      · simp [ha, had, hact]
    exact (h.frame a hrun).trans (congrFun hm a)
  closed := h.closed

omit ih [DecidableEq V] in
theorem waiting_enter {q₀ : Q K V} (ha : q₀.active = Function.update q.active d true) (hd : d ∈ S)
    (hact : q.active d = false) (hj : waiting S q ≤ j + 1) : waiting S q₀ ≤ j := by
  have hsub : (S.filter fun a => q₀.active a = false) ⊂ S.filter fun a => q.active a = false := by
    refine Finset.ssubset_iff_subset_ne.mpr ⟨fun a hmem => ?_, fun heq => ?_⟩
    · obtain ⟨hmem, hfalse⟩ := Finset.mem_filter.mp hmem
      refine Finset.mem_filter.mpr ⟨hmem, ?_⟩
      by_cases had : a = d
      · rw [had, hact]
      · simpa [ha, had] using hfalse
    · have hin : d ∈ S.filter fun a => q.active a = false := Finset.mem_filter.mpr ⟨hd, hact⟩
      rw [← heq] at hin
      simpa [ha] using (Finset.mem_filter.mp hin).2
  have hlt := Finset.card_lt_card hsub
  rw [waiting] at hj ⊢
  omega

omit ih in
/-- Storing a result writes one entry, with the recorded reads. -/
theorem store_writes (df : Def K V E) (entry : Option (Memo K V)) (value : V) (deps : List (Dep K)) :
    ∃ m cutoffs, m.deps = deps ∧ (store df d entry value deps q).2 =
      { q with cutoffs, memo := Function.update q.memo d (some m) } := by
  cases entry with
  | none => exact ⟨_, _, rfl, rfl⟩
  | some e =>
    by_cases hsame : df.same e.value value = true
    · rw [store, if_pos hsame]
      exact ⟨_, _, rfl, rfl⟩
    · rw [store, if_neg hsame]
      exact ⟨_, _, rfl, rfl⟩

/-- An entry that still stands, marked current. -/
def revalidate (q : Q K V) (d : Dep K) (entry : Memo K V) : Q K V :=
  countHit { q with
    memo := Function.update q.memo d (some { entry with verifiedAt := q.revision }) } d

omit ih [DecidableEq V] in
theorem revalidate_keeps {entry : Memo K V} (h : Keeps S q q') (hact : q.active d = false)
    (hdeps : ∀ e ∈ entry.deps, e ∈ S) : Keeps S q (revalidate q' d entry) where
  revision := h.revision
  inputs := h.inputs
  active := h.active
  frame a ha := by
    have hne : a ≠ d := by
      rintro rfl
      simp [hact] at ha
    simp only [revalidate, countHit, Function.update_of_ne hne]
    exact h.frame a ha
  closed a ha m hm := by
    by_cases had : a = d
    · simp only [revalidate, countHit, had, Function.update_self, Option.some.injEq] at hm
      rw [← hm]
      exact hdeps
    · simp only [revalidate, countHit, Function.update_of_ne had] at hm
      exact h.closed a ha m hm

variable {df : Def K V E} (hfamily : Family prog S) (hd : d ∈ S) (hdf : prog.defs d.name = some df)
  (hclosed : Closed S q) (hact : q.active d = false) (hj : waiting S q ≤ j + 1)

include hfamily hd hdf hclosed hact hj

/-- Running the definition of a query ends; an entry for it is written only if it returned. -/
theorem compute_ends {entry : Option (Memo K V)} (hentry : q.memo d = entry) :
    ∃ r q', Keeps S q q' ∧
      q'.stack = (match r with
        | .ok _ => (record q d).stack
        | .error _ => q.stack) ∧
      (∀ e, r = .error e → q'.memo d = entry) ∧
      ∀ n, j < n → compute (get prog n) df d entry q = some (r, q') ∧
        Fresh (fun x m =>
          (∃ call, Makes (get prog n) (df.fn d.key) (starting q d) call ∧ Left prog n call x m) ∨
            x = d ∧ (∃ v, r = .ok v) ∧ q'.memo d = some m) q q' := by
  have hwaiting : waiting S (starting q d) ≤ j := waiting_enter rfl hd hact hj
  obtain ⟨r, q₁, reads, hreads, hs, hkeeps, hrun⟩ := runFn_ends ih (df.fn d.key)
    (hfamily d hd df hdf) (q := starting q d) hclosed hwaiting rfl
  have hleave : Keeps S q (leave q₁ d) := hkeeps.leave rfl rfl rfl rfl hact
  have hstack : (leave q₁ d).stack = q.stack := by rw [leave, hs, List.tail_cons]
  have hmemo : q₁.memo d = entry := by
    rw [← hentry]
    exact hkeeps.frame d (by simp [starting, enter])
  cases r with
  | error e =>
    refine ⟨.error e, leave q₁ d, hleave, hstack, fun _ _ => hmemo, fun n hn => ?_⟩
    obtain ⟨hfn, hfresh⟩ := hrun n hn
    rw [starting] at hfn
    exact ⟨by simp only [compute, hfn], fun x m hm hv => (hfresh x m hm hv).imp_right .inl⟩
  | ok value =>
    obtain ⟨m, cutoffs, hdeps, hstore⟩ :=
      store_writes (q := leave q₁ d) (d := d) df entry value (q₁.stack.headD [])
    refine ⟨.ok (store df d entry value (q₁.stack.headD []) (leave q₁ d)).1,
      record (store df d entry value (q₁.stack.headD []) (leave q₁ d)).2 d, ?_, ?_, by rintro _ ⟨⟩,
      fun n hn => ?_⟩
    · refine Keeps.record ⟨?_, ?_, ?_, fun a ha => ?_, fun a ha m' hm' => ?_⟩ d
      · rw [hstore, ← hleave.revision]
      · rw [hstore, ← hleave.inputs]
      · rw [hstore, ← hleave.active]
      · have hne : a ≠ d := by
          rintro rfl
          simp [hact] at ha
        rw [hstore]
        simp only [Function.update_of_ne hne]
        exact hleave.frame a ha
      · rw [hstore] at hm'
        by_cases had : a = d
        · rw [had] at hm'
          simp only [Function.update_self, Option.some.injEq] at hm'
          rw [← hm', hdeps, hs]
          simpa using hreads
        · simp only [Function.update_of_ne had] at hm'
          exact hleave.closed a ha m' hm'
    · refine record_stack_congr ?_ d
      rw [hstore]
      exact hstack
    · obtain ⟨hfn, hfresh⟩ := hrun n hn
      rw [starting] at hfn
      refine ⟨by simp only [compute, hfn], fun x m' hm' hv => ?_⟩
      rw [record_memo] at hm' 
      rw [record_revision] at hv
      by_cases hx : x = d
      · subst hx
        exact .inr (.inr ⟨rfl, ⟨_, rfl⟩, by rw [record_memo, hm']⟩)
      · rw [hstore] at hm' hv
        simp only [Function.update_of_ne hx] at hm'
        exact (hfresh x m' hm' hv).imp_right .inl

/-- Revalidating an entry ends, with its query recomputed or not. -/
theorem refresh_ends {entry : Memo K V} (hentry : q.memo d = some entry) :
    ∃ r q', Keeps S q q' ∧
      q'.stack = (match r with
        | .ok _ => (record q d).stack
        | .error _ => q.stack) ∧
      (∀ e, r = .error e → q'.memo d = some entry) ∧
      ∀ n, j < n → refresh (get prog n) df d entry q = some (r, q') ∧
        Fresh (fun x m =>
          (∃ call, Calls prog (get prog n) (d, q) call ∧ Left prog n call x m) ∨
            x = d ∧ (∃ v, r = .ok v) ∧ q'.memo d = some m) q q' := by
  have hwaiting : waiting S (enter q d) ≤ j := waiting_enter rfl hd hact hj
  obtain ⟨r, q₁, top, hs, hkeeps, hrun⟩ := validateDeps_ends ih entry.verifiedAt
    entry.deps (q := enter q d) (hclosed d hd entry hentry) hclosed hwaiting rfl
  have hleave : Keeps S q (leave q₁ d) := hkeeps.leave rfl rfl rfl rfl hact
  have hstack : (leave q₁ d).stack = q.stack := by rw [leave, hs, List.tail_cons]
  have hmemo : q₁.memo d = some entry := by
    rw [← hentry]
    exact hkeeps.frame d (by simp [enter])
  have hfirst : ∀ n, j < n → Fresh (fun x m =>
      ∃ call, Calls prog (get prog n) (d, q) call ∧ Left prog n call x m) q (leave q₁ d) := by
    intro n hn x m hm hv
    rcases (hrun n hn).2 x m hm hv with hold | ⟨call, hchecks, hleft⟩
    · exact .inl hold
    · exact .inr ⟨call, .validation hentry hact hchecks, hleft⟩
  cases r with
  | error e =>
    refine ⟨.error e, leave q₁ d, hleave, hstack, fun _ _ => hmemo, fun n hn => ?_⟩
    exact ⟨by simp only [refresh, (hrun n hn).1], (hfirst n hn).mono fun x m => .inl⟩
  | ok clean =>
    cases clean with
    | false =>
      obtain ⟨r', q', hkeeps', hs', hraised, hcompute⟩ := compute_ends ih hfamily hd hdf
        hleave.closed (by rw [hleave.active, hact]) (hleave.waiting ▸ hj) hmemo
      refine ⟨r', q', hleave.trans hkeeps', ?_, hraised, fun n hn => ?_⟩
      · rw [hs']
        cases r' with
        | ok v => exact record_stack_congr hstack d
        | error e => exact hstack
      · obtain ⟨hcomp, hfresh⟩ := hcompute n hn
        refine ⟨by simp only [refresh, (hrun n hn).1, hcomp], ?_⟩
        refine ((hfirst n hn).mono fun x m => .inl).trans (hfresh.mono ?_) hkeeps'.revision
        rintro x m (⟨call, hmakes, hleft⟩ | hself)
        · exact .inl ⟨call, .again hdf hentry hact (hrun n hn).1 hmakes, hleft⟩
        · exact .inr hself
    | true =>
      have hvalid : (revalidate (leave q₁ d) d entry).stack = q.stack := hstack
      refine ⟨.ok entry.value, record (revalidate (leave q₁ d) d entry) d,
        (revalidate_keeps hleave hact (hclosed d hd entry hentry)).record d,
        record_stack_congr hvalid d, by rintro _ ⟨⟩, fun n hn => ⟨?_, fun x m hm hv => ?_⟩⟩
      · simp only [refresh, (hrun n hn).1]
        rfl
      · rw [record_memo] at hm
        rw [record_revision] at hv
        by_cases hx : x = d
        · subst hx
          exact .inr (.inr ⟨rfl, ⟨_, rfl⟩, by rw [record_memo, hm]⟩)
        · simp only [revalidate, countHit, Function.update_of_ne hx] at hm
          exact (hfirst n hn x m hm hv).imp_right .inl

omit hfamily hdf hact hd hclosed hj ih in
/-- A read that answers at once, and records itself. -/
theorem unwound_record {n : ℕ} {v : V} (hkeeps : Keeps S q q') (hs : q'.stack = q.stack)
    (hm : q'.memo = q.memo) : Unwound S prog n d q (.ok v) (record q' d) where
  keeps := hkeeps.record d
  stack := record_stack_congr hs d
  raised := nofun
  fresh x m hm' _ := by
    rw [record_memo, hm] at hm'
    exact .inl hm'

omit hfamily hdf hact hd hclosed hj ih in
/-- What a read made itself is left by a read under way in it, and so is its own entry. -/
theorem unwound_of_calls {n : ℕ} {r : Except (Failure E) V} (hkeeps : Keeps S q q')
    (hs : q'.stack = match r with
      | .ok _ => (record q d).stack
      | .error _ => q.stack)
    (hraised : ∀ e, r = .error e → q'.memo d = q.memo d)
    (hstale : ∀ m, q.memo d = some m → m.verifiedAt ≠ q.revision)
    (hget : get prog (n + 1) d q = some (r, q'))
    (hfresh : Fresh (fun x m =>
      (∃ call, Calls prog (get prog n) (d, q) call ∧ Left prog n call x m) ∨
        x = d ∧ (∃ v, r = .ok v) ∧ q'.memo d = some m) q q') :
    Unwound S prog (n + 1) d q r q' where
  keeps := hkeeps
  stack := hs
  raised e he _ m hm := by
    rw [hraised e he] at hm
    rw [hkeeps.revision]
    exact hstale m hm
  fresh := by
    refine hfresh.mono ?_
    rintro x m (⟨call, hcall, hleft⟩ | ⟨rfl, ⟨v, rfl⟩, hm⟩)
    · exact hleft.step hcall
    · exact ⟨n + 1, q, v, q', .refl, hget, hm⟩

end Reads

section Ending

variable [DecidableEq K] [DecidableEq V] {S : Finset (Dep K)} {prog : Program K V E} {j : ℕ}

/-- Reads end with one more query of the family waiting, or with none. -/
theorem get_ends (hfamily : Family prog S) (ih : ∀ i < j, Ends S prog i) : Ends S prog j := by
  intro d hd q hclosed hj
  have hsucc : ∀ n, j < n → ∃ k, n = k + 1 ∧ j ≤ k := fun n hn => ⟨n - 1, by omega, by omega⟩
  cases hi : q.inputs d with
  | some inp =>
    refine ⟨.ok inp.value, record q d, fun n hn => ?_⟩
    obtain ⟨k, rfl, -⟩ := hsucc n hn
    exact ⟨by simp only [get, getStep, hi], unwound_record (.refl hclosed) rfl rfl⟩
  | none =>
  cases hdf : prog.defs d.name with
  | none =>
    refine ⟨.error (.unknownQuery d.name), q, fun n hn => ?_⟩
    obtain ⟨k, rfl, -⟩ := hsucc n hn
    exact ⟨by simp only [get, getStep, hi, hdf],
      ⟨.refl hclosed, rfl, fun _ _ hne => absurd hdf hne, .refl⟩⟩
  | some df =>
  have hwaits : q.active d = false → ∃ i, j = i + 1 := by
    intro hact
    have hpos : 0 < waiting S q :=
      Finset.card_pos.mpr ⟨d, Finset.mem_filter.mpr ⟨hd, hact⟩⟩
    exact ⟨j - 1, by omega⟩
  cases hm : q.memo d with
  | none =>
    cases hact : q.active d with
    | true =>
      refine ⟨.ok prog.nil, record q d, fun n hn => ?_⟩
      obtain ⟨k, rfl, -⟩ := hsucc n hn
      exact ⟨by simp only [get, getStep, hi, hdf, hm, hact, if_true],
        unwound_record (.refl hclosed) rfl rfl⟩
    | false =>
      obtain ⟨i, rfl⟩ := hwaits hact
      obtain ⟨r, q', hkeeps, hs, hraised, hrun⟩ :=
        compute_ends (ih i (Nat.lt_succ_self i)) hfamily hd hdf hclosed hact hj hm
      refine ⟨r, q', fun n hn => ?_⟩
      obtain ⟨k, rfl, hk⟩ := hsucc n hn
      obtain ⟨hcompute, hfresh⟩ := hrun k hk
      have hget : get prog (k + 1) d q = some (r, q') := by
        simp only [get, getStep, hi, hdf, hm, hact, hcompute]
        rfl
      refine ⟨hget, unwound_of_calls hkeeps hs (fun e he => by rw [hraised e he, hm])
        (fun m hm' => by simp [hm] at hm') hget (hfresh.mono ?_)⟩
      rintro x m (⟨call, hmakes, hleft⟩ | hself)
      · exact .inl ⟨call, .first hdf hm hact hmakes, hleft⟩
      · exact .inr hself
  | some entry =>
    by_cases hcurrent : entry.verifiedAt = q.revision
    · refine ⟨.ok entry.value, record (countHit q d) d, fun n hn => ?_⟩
      obtain ⟨k, rfl, -⟩ := hsucc n hn
      exact ⟨by simp only [get, getStep, hi, hdf, hm, if_pos hcurrent],
        unwound_record ⟨rfl, rfl, rfl, fun _ _ => rfl, hclosed⟩ rfl rfl⟩
    cases hact : q.active d with
    | true =>
      refine ⟨.ok (if prog.truthy entry.value then entry.value else prog.nil), record q d,
        fun n hn => ?_⟩
      obtain ⟨k, rfl, -⟩ := hsucc n hn
      exact ⟨by simp only [get, getStep, hi, hdf, hm, if_neg hcurrent, hact, if_true],
        unwound_record (.refl hclosed) rfl rfl⟩
    | false =>
      obtain ⟨i, rfl⟩ := hwaits hact
      obtain ⟨r, q', hkeeps, hs, hraised, hrun⟩ :=
        refresh_ends (ih i (Nat.lt_succ_self i)) hfamily hd hdf hclosed hact hj hm
      refine ⟨r, q', fun n hn => ?_⟩
      obtain ⟨k, rfl, hk⟩ := hsucc n hn
      obtain ⟨hrefresh, hfresh⟩ := hrun k hk
      have hget : get prog (k + 1) d q = some (r, q') := by
        simp only [get, getStep, hi, hdf, hm, if_neg hcurrent, hact, hrefresh]
        rfl
      refine ⟨hget, unwound_of_calls hkeeps hs (fun e he => by rw [hraised e he, hm])
        (fun m hm' => ?_) hget hfresh⟩
      rw [hm] at hm'
      rwa [← Option.some.inj hm']

theorem family_ends (hfamily : Family prog S) (j : ℕ) : Ends S prog j := by
  induction j using Nat.strong_induction_on with
  | _ j ih => exact get_ends hfamily ih

/-- Every read of a finite family ends, whatever is running when it is asked. -/
theorem get_unwinds (S : Finset (Dep K)) (prog : Program K V E) (hfamily : Family prog S)
    (q : Q K V) (hclosed : Closed S q) (d : Dep K) (hd : d ∈ S) :
    ∃ r q', ∀ n, waiting S q < n → get prog n d q = some (r, q') ∧ Unwound S prog n d q r q' :=
  family_ends hfamily (waiting S q) d hd q hclosed (Nat.le_refl _)

/-- Two queries that read each other, one of which always raises. -/
def twins : Program Unit ℕ Unit where
  defs name :=
    if name = "left" then some ⟨fun _ => .get ⟨"right", ()⟩ fun _ => .raise (.raised ()), none⟩
    else if name = "right" then some ⟨fun _ => .get ⟨"left", ()⟩ .ret, none⟩
    else none
  nil := 0
  truthy _ := true

theorem family_twins : Family twins {⟨"left", ()⟩, ⟨"right", ()⟩} := by
  intro d hd df hdf e he
  rcases Finset.mem_insert.mp hd with rfl | hd
  · obtain rfl := Option.some.inj hdf
    cases he with
    | here => simp
    | later r he => cases r <;> cases he
  · obtain rfl := Finset.mem_singleton.mp hd
    obtain rfl := Option.some.inj hdf
    cases he with
    | here => simp
    | later r he => cases r <;> cases he

theorem get_unwinds_twins : ∃ r q', ∀ n, 2 < n → get twins n ⟨"right", ()⟩ Q.new = some (r, q') ∧
    Unwound {⟨"left", ()⟩, ⟨"right", ()⟩} twins n ⟨"right", ()⟩ Q.new r q' :=
  get_unwinds _ twins family_twins Q.new (fun _ _ _ hm => by cases hm) ⟨"right", ()⟩ (by simp)

section Runs

variable {q : Q K V}

omit [DecidableEq V] in
theorem closed_setInput (h : Closed S q) (d : Dep K) (v : V) : Closed S (setInput q d v) := h

omit [DecidableEq V] in
theorem closed_clearInput (h : Closed S q) (d : Dep K) : Closed S (clearInput q d) := by
  intro a ha m hm
  by_cases had : a = d
  · simp [clearInput, had] at hm
  · exact h a ha m (by simpa [clearInput, had] using hm)

/-- Nothing runs between the calls of a program. -/
structure Idle (q : Q K V) : Prop where
  stack : q.stack = []
  active : ∀ d, q.active d = false

theorem exec_ends_from (hfamily : Family prog S) (ops : List (Op K V))
    (hops : ∀ d, .get d ∈ ops → d ∈ S) (hclosed : Closed S q) (hidle : Idle q) :
    ∃ outs q', (∀ n, S.card < n → exec prog n ops q = some (outs, q')) ∧ Idle q' := by
  induction ops generalizing q with
  | nil => exact ⟨[], q, fun _ _ => rfl, hidle⟩
  | cons op ops ih =>
    have hrest : ∀ d, .get d ∈ ops → d ∈ S := fun d hd => hops d (List.mem_cons_of_mem _ hd)
    cases op with
    | setInput d v => exact ih hrest (closed_setInput hclosed d v) ⟨hidle.stack, hidle.active⟩
    | clearInput d => exact ih hrest (closed_clearInput hclosed d) ⟨hidle.stack, hidle.active⟩
    | get d =>
      have hcard : waiting S q ≤ S.card := Finset.card_filter_le _ _
      obtain ⟨r, q₁, hget⟩ := family_ends hfamily (waiting S q) d (hops d List.mem_cons_self) q hclosed (Nat.le_refl _)
      have hunwound := (hget (S.card + 1) (by omega)).2
      have hstack : q₁.stack = [] := by
        rw [hunwound.stack]
        cases r <;> simp [record, hidle.stack]
      obtain ⟨outs, q', hexec, hidle'⟩ := ih hrest hunwound.keeps.closed
        ⟨hstack, fun d => by rw [hunwound.keeps.active, hidle.active]⟩
      refine ⟨r :: outs, q', fun n hn => ?_, hidle'⟩
      simp only [exec, (hget n (by omega)).1, hexec n hn, Option.map_some]

/-- Any calls for a finite family end, and leave nothing running. -/
theorem exec_ends (hfamily : Family prog S) (ops : List (Op K V))
    (hops : ∀ d, .get d ∈ ops → d ∈ S) :
    ∃ outs q, (∀ n, S.card < n → exec prog n ops Q.new = some (outs, q)) ∧ Idle q :=
  exec_ends_from hfamily ops hops (fun _ _ _ hm => by cases hm) ⟨rfl, fun _ => rfl⟩

theorem exec_ends_twins : ∃ outs q, (∀ n, 2 < n →
    exec twins n [.get ⟨"right", ()⟩, .setInput ⟨"left", ()⟩ 5, .get ⟨"left", ()⟩] Q.new = some (outs, q)) ∧ Idle q :=
  exec_ends family_twins _ (by simp)

end Runs

end Ending

end Nupp.Query
