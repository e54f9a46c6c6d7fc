import Nupp.Lib.Reads

/-! The incremental query engine of `project/query`: inputs with a revision
stamp, derived queries with a memo, validation before recomputation and the
early cutoff. A definition is a pure computation over the queries it reads. -/

namespace Nupp.Query

open Reads

/-- A query and the key it is asked for. -/
structure Dep (K : Type*) where
  name : String
  key : K
  deriving DecidableEq

structure Input (V : Type*) where
  value : V
  changedAt : ℕ

/-- What a derived query left behind. -/
structure Memo (K V : Type*) where
  value : V
  changedAt : ℕ
  verifiedAt : ℕ
  deps : List (Dep K)

inductive Failure (E : Type*)
  | unknownQuery (name : String)
  | raised (error : E)

/-- How to compute one query, and when a recomputed value counts as unchanged. -/
structure Def (K V E : Type*) where
  fn : K → Comp (Dep K) V (Failure E)
  eq : Option (V → V → Bool)

/-- The definitions, with what the host language says about its values. -/
structure Program (K V E : Type*) where
  defs : String → Option (Def K V E)
  nil : V
  truthy : V → Bool

/-- The query database. Frames are innermost first, and each lists the reads of
one running computation. -/
structure Q (K V : Type*) where
  revision : ℕ
  inputs : Dep K → Option (Input V)
  memo : Dep K → Option (Memo K V)
  stack : List (List (Dep K))
  active : Dep K → Bool
  stats : String → ℕ
  hits : String → ℕ
  cutoffs : String → ℕ

variable {K V E : Type*}

def Q.new : Q K V :=
  { revision := 1, inputs := fun _ => none, memo := fun _ => none, stack := [],
    active := fun _ => false, stats := fun _ => 0, hits := fun _ => 0, cutoffs := fun _ => 0 }

section Engine

variable [DecidableEq K] [DecidableEq V]

def setInput (q : Q K V) (d : Dep K) (value : V) : Q K V :=
  { q with
    revision := q.revision + 1
    inputs := Function.update q.inputs d (some ⟨value, q.revision + 1⟩) }

def clearInput (q : Q K V) (d : Dep K) : Q K V :=
  { q with
    revision := q.revision + 1
    inputs := Function.update q.inputs d none
    memo := Function.update q.memo d none }

/-- Records a read in the innermost running computation. -/
def record (q : Q K V) (d : Dep K) : Q K V :=
  match q.stack with
  | [] => q
  | top :: rest => { q with stack := (top ++ [d]) :: rest }

/-- An answer with the database it leaves, or nothing when the depth allowed to
nested reads runs out. -/
abbrev Answer (K V E α : Type*) := Option (Except (Failure E) α × Q K V)

abbrev Getter (K V E : Type*) := Dep K → Q K V → Answer K V E V

def runFn (self : Getter K V E) : Comp (Dep K) V (Failure E) → Q K V → Answer K V E V
  | .ret v, q => some (.ok v, q)
  | .raise e, q => some (.error e, q)
  | .read d cont, q =>
    match self d q with
    | none => none
    | some (r, q) => runFn self (cont r) q

/-- Brings a dependency up to date, then reports when it last changed. -/
def depChangedAt (self : Getter K V E) (d : Dep K) (q : Q K V) : Answer K V E ℕ :=
  match q.inputs d with
  | some inp => some (.ok inp.changedAt, q)
  | none =>
    match self d q with
    | none => none
    | some (.error e, q) => some (.error e, q)
    | some (.ok _, q) =>
      match q.memo d with
      | some entry => some (.ok entry.changedAt, q)
      | none => some (.ok q.revision, q)

def validateDeps (self : Getter K V E) (verifiedAt : ℕ) : List (Dep K) → Q K V → Answer K V E Bool
  | [], q => some (.ok true, q)
  | d :: rest, q =>
    match depChangedAt self d q with
    | none => none
    | some (.error e, q) => some (.error e, q)
    | some (.ok changedAt, q) =>
      if verifiedAt < changedAt then some (.ok false, q) else validateDeps self verifiedAt rest q

/-- Opens a frame and marks the query as running. -/
def enter (q : Q K V) (d : Dep K) : Q K V :=
  { q with stack := [] :: q.stack, active := Function.update q.active d true }

/-- Closes the frame opened by `enter`. -/
def leave (q : Q K V) (d : Dep K) : Q K V :=
  { q with stack := q.stack.tail, active := Function.update q.active d false }

def Def.same (df : Def K V E) (a b : V) : Bool :=
  match df.eq with
  | some eq => eq a b
  | none => a = b

/-- Stores a fresh result, backdated when it is the value the entry had. -/
def store (df : Def K V E) (d : Dep K) (entry : Option (Memo K V)) (value : V) (deps : List (Dep K))
    (q : Q K V) : V × Q K V :=
  match entry with
  | some e =>
    if df.same e.value value then
      (e.value, { q with
        cutoffs := Function.update q.cutoffs d.name (q.cutoffs d.name + 1)
        memo := Function.update q.memo d (some ⟨e.value, e.changedAt, q.revision, deps⟩) })
    else
      (value, { q with memo := Function.update q.memo d (some ⟨value, q.revision, q.revision, deps⟩) })
  | none =>
    (value, { q with memo := Function.update q.memo d (some ⟨value, q.revision, q.revision, deps⟩) })

def compute (self : Getter K V E) (df : Def K V E) (d : Dep K) (entry : Option (Memo K V))
    (q : Q K V) : Answer K V E V :=
  let q := { q with stats := Function.update q.stats d.name (q.stats d.name + 1) }
  match runFn self (df.fn d.key) (enter q d) with
  | none => none
  | some (.error e, q) => some (.error e, leave q d)
  | some (.ok value, q) =>
    let (value, q) := store df d entry value (q.stack.headD []) (leave q d)
    some (.ok value, record q d)

def countHit (q : Q K V) (d : Dep K) : Q K V :=
  { q with hits := Function.update q.hits d.name (q.hits d.name + 1) }

/-- Revalidates an entry of an earlier revision, and recomputes it when a
dependency has moved. -/
def refresh (self : Getter K V E) (df : Def K V E) (d : Dep K) (entry : Memo K V) (q : Q K V) :
    Answer K V E V :=
  match validateDeps self entry.verifiedAt entry.deps (enter q d) with
  | none => none
  | some (.error e, q) => some (.error e, leave q d)
  | some (.ok true, q) =>
    let q := leave q d
    let q := { q with memo := Function.update q.memo d (some { entry with verifiedAt := q.revision }) }
    some (.ok entry.value, record (countHit q d) d)
  | some (.ok false, q) => compute self df d (some entry) (leave q d)

def getStep (prog : Program K V E) (self : Getter K V E) : Getter K V E := fun d q =>
  match q.inputs d with
  | some inp => some (.ok inp.value, record q d)
  | none =>
    match prog.defs d.name with
    | none => some (.error (.unknownQuery d.name), q)
    | some df =>
      match q.memo d with
      | some entry =>
        if entry.verifiedAt = q.revision then some (.ok entry.value, record (countHit q d) d)
        else if q.active d then
          some (.ok (if prog.truthy entry.value then entry.value else prog.nil), record q d)
        else refresh self df d entry q
      | none =>
        if q.active d then some (.ok prog.nil, record q d)
        else compute self df d none q

/-- `Q:get`, with a bound on how deep reads may nest. -/
def get (prog : Program K V E) : ℕ → Getter K V E
  | 0 => fun _ _ => none
  | n + 1 => getStep prog (get prog n)

inductive Op (K V : Type*)
  | setInput (d : Dep K) (value : V)
  | clearInput (d : Dep K)
  | get (d : Dep K)

/-- Runs a sequence of calls and collects what the gets returned. -/
def exec (prog : Program K V E) (n : ℕ) :
    List (Op K V) → Q K V → Option (List (Except (Failure E) V) × Q K V)
  | [], q => some ([], q)
  | .setInput d v :: ops, q => exec prog n ops (setInput q d v)
  | .clearInput d :: ops, q => exec prog n ops (clearInput q d)
  | .get d :: ops, q =>
    match get prog n d q with
    | none => none
    | some (r, q) => (exec prog n ops q).map fun (rs, q) => (r :: rs, q)

end Engine

/-! Evaluation from nothing, over a fixed set of inputs. -/

abbrev Inputs (K V : Type*) := Dep K → Option V

def runScratch (self : Dep K → Option (Except (Failure E) V)) :
    Comp (Dep K) V (Failure E) → Option (Except (Failure E) V)
  | .ret v => some (.ok v)
  | .raise e => some (.error e)
  | .read d cont =>
    match self d with
    | none => none
    | some r => runScratch self (cont r)

/-- The value of a query when every definition it needs is evaluated afresh. -/
def scratch (prog : Program K V E) (inputs : Inputs K V) : ℕ → Dep K → Option (Except (Failure E) V)
  | 0, _ => none
  | n + 1, d =>
    match inputs d with
    | some v => some (.ok v)
    | none =>
      match prog.defs d.name with
      | none => some (.error (.unknownQuery d.name))
      | some df => runScratch (scratch prog inputs n) (df.fn d.key)

end Nupp.Query

/-! What a query means over fixed inputs, up to the equality its definition
declares, and the definitions for which evaluation ends. -/

namespace Nupp.Query

open Reads Relation

variable {K V E : Type*} [DecidableEq K] [DecidableEq V]

/-- When two values of a query count as the same one. -/
def eqv (prog : Program K V E) (d : Dep K) (a b : V) : Prop :=
  match prog.defs d.name with
  | some df => df.same a b
  | none => a = b

/-- Every `eq` is an equivalence, and the definitions respect them. -/
structure Lawful (prog : Program K V E) : Prop where
  equivalence : ∀ d, Equivalence (eqv prog d)
  respects : ∀ d df, prog.defs d.name = some df → Respects (eqv prog) d (df.fn d.key)

/-- The values a query has over `inputs`, when each derived query on the way may
answer any value its `eq` does not tell from the computed one. -/
inductive Eval (prog : Program K V E) (inputs : Inputs K V) : Dep K → V → Prop
  | input {d : Dep K} {v : V} (h : inputs d = some v) : Eval prog inputs d v
  | derived {d : Dep K} {df : Def K V E} {log : List (Dep K × V)} {w v : V} (hi : inputs d = none)
      (hd : prog.defs d.name = some df) (hf : (df.fn d.key).Follows log (.ret w))
      (hc : Consistent log) (hlog : ∀ x ∈ log, Eval prog inputs x.1 x.2) (hv : eqv prog d w v) :
      Eval prog inputs d v

/-- `d` gets to reading `e` while it is computed over `inputs`. -/
def Needs (prog : Program K V E) (inputs : Inputs K V) (e d : Dep K) : Prop :=
  inputs d = none ∧ ∃ df log cont, prog.defs d.name = some df ∧
    (df.fn d.key).Follows log (.read e cont) ∧ Consistent log ∧
    ∀ x ∈ log, Eval prog inputs x.1 x.2

/-- `d` is an input, or has a definition that does not get to raising. -/
def Quiet (prog : Program K V E) (inputs : Inputs K V) (d : Dep K) : Prop :=
  inputs d = none → ∃ df, prog.defs d.name = some df ∧
    ∀ log e, (df.fn d.key).Follows log (.raise e) → Consistent log →
      ¬ ∀ x ∈ log, Eval prog inputs x.1 x.2

/-- Evaluation of `d` over `inputs` runs into no cycle and raises nowhere. -/
structure Computable (prog : Program K V E) (inputs : Inputs K V) (d : Dep K) : Prop where
  acyclic : Acc (Needs prog inputs) d
  quiet : ∀ e, ReflTransGen (Needs prog inputs) e d → Quiet prog inputs e

variable {prog : Program K V E} {inputs : Inputs K V}

omit [DecidableEq K] in
theorem Computable.needs {d e : Dep K} (h : Computable prog inputs d) (hn : Needs prog inputs e d) :
    Computable prog inputs e :=
  ⟨h.acyclic.inv hn, fun x hx => h.quiet x (hx.tail hn)⟩

theorem not_transGen_self {α : Type*} {r : α → α → Prop} {a : α} (h : Acc r a) : ¬ TransGen r a a := by
  have ht := h.transGen
  induction ht with
  | intro a _ ih =>
    intro hr
    exact ih a hr h hr

omit [DecidableEq K] in
theorem Lawful.refl (hl : Lawful prog) (d : Dep K) (v : V) : eqv prog d v v :=
  (hl.equivalence d).refl v

/-- A query has one value up to its `eq`. -/
theorem Eval.unique (hl : Lawful prog) {d : Dep K} {v v' : V} (h : Eval prog inputs d v)
    (h' : Eval prog inputs d v') : eqv prog d v v' := by
  induction h generalizing v' with
  | input hi =>
    cases h' with
    | input hi' =>
      cases hi.symm.trans hi'
      exact hl.refl _ _
    | derived hi' => cases hi.symm.trans hi'
  | @derived d df log w v hi hd hf hc _ hv ih =>
    cases h' with
    | input hi' => cases hi'.symm.trans hi
    | @derived _ df' log' w' _ _ hd' hf' hc' hlog' hv' =>
      cases hd.symm.trans hd'
      have hw : eqv prog d w w' := by
        refine (hl.respects d df hd).logs hl.refl (fun _ => v) hf hf' hc hc' fun x hx y hy he => ?_
        have hy' := hlog' y hy
        rw [← he] at hy'
        exact ih x hx hy'
      exact (hl.equivalence d).trans ((hl.equivalence d).symm hv) ((hl.equivalence d).trans hw hv')

/-! Evaluation from nothing computes such a value. -/

omit [DecidableEq K] [DecidableEq V] in
theorem runScratch_mono {self self' : Dep K → Option (Except (Failure E) V)}
    (h : ∀ d r, self d = some r → self' d = some r) {c : Comp (Dep K) V (Failure E)}
    {r : Except (Failure E) V} (hr : runScratch self c = some r) : runScratch self' c = some r := by
  induction c with
  | ret v => exact hr
  | raise e => exact hr
  | read d cont ih =>
    simp only [runScratch] at hr ⊢
    cases hs : self d with
    | none => simp [hs] at hr
    | some a =>
      rw [h d a hs]
      exact ih a (by simpa [hs] using hr)

omit [DecidableEq K] [DecidableEq V] in
theorem scratch_succ {n : ℕ} {d : Dep K} {r : Except (Failure E) V}
    (h : scratch prog inputs n d = some r) : scratch prog inputs (n + 1) d = some r := by
  induction n generalizing d r with
  | zero => cases h
  | succ n ih =>
    rw [scratch] at h ⊢
    cases hi : inputs d with
    | some v => simpa [hi] using h
    | none =>
      cases hd : prog.defs d.name with
      | none => simpa [hi, hd] using h
      | some df =>
        simp only [hi, hd] at h ⊢
        exact runScratch_mono (fun d r hr => ih hr) h

omit [DecidableEq K] [DecidableEq V] in
theorem scratch_mono {m n : ℕ} (hmn : m ≤ n) {d : Dep K} {r : Except (Failure E) V}
    (h : scratch prog inputs m d = some r) : scratch prog inputs n d = some r := by
  induction hmn with
  | refl => exact h
  | step _ ih => exact scratch_succ ih

omit [DecidableEq K] [DecidableEq V] in
theorem scratch_unique {m n : ℕ} {d : Dep K} {r r' : Except (Failure E) V}
    (h : scratch prog inputs m d = some r) (h' : scratch prog inputs n d = some r') : r = r' := by
  have h1 := scratch_mono (Nat.le_max_left m n) h
  have h2 := scratch_mono (Nat.le_max_right m n) h'
  exact Option.some.inj (h1.symm.trans h2)

omit [DecidableEq K] [DecidableEq V] in
theorem scratch_consistent {log : List (Dep K × V)}
    (h : ∀ x ∈ log, ∃ n, scratch prog inputs n x.1 = some (.ok x.2)) : Consistent log := by
  intro x hx y hy he
  obtain ⟨n, hn⟩ := h x hx
  obtain ⟨m, hm⟩ := h y hy
  rw [he] at hn
  exact Except.ok.inj (scratch_unique hn hm)

omit [DecidableEq K] in
/-- The rest of a definition evaluates, once the reads before it have. -/
theorem runScratch_eval {d : Dep K} {df : Def K V E} (hi : inputs d = none)
    (hd : prog.defs d.name = some df) (hq : Quiet prog inputs d)
    (ih : ∀ e, Needs prog inputs e d →
      ∃ n v, scratch prog inputs n e = some (.ok v) ∧ Eval prog inputs e v)
    (c : Comp (Dep K) V (Failure E)) (log : List (Dep K × V)) (hf : (df.fn d.key).Follows log c)
    (hlog : ∀ x ∈ log, Eval prog inputs x.1 x.2 ∧ ∃ n, scratch prog inputs n x.1 = some (.ok x.2)) :
    ∃ n w log', runScratch (scratch prog inputs n) c = some (.ok w) ∧
      (df.fn d.key).Follows log' (.ret w) ∧ Consistent log' ∧
      ∀ x ∈ log', Eval prog inputs x.1 x.2 := by
  have hcons := scratch_consistent fun x hx => (hlog x hx).2
  induction c generalizing log with
  | ret w => exact ⟨0, w, log, rfl, hf, hcons, fun x hx => (hlog x hx).1⟩
  | raise e =>
    obtain ⟨df', hd', hraise⟩ := hq hi
    cases hd.symm.trans hd'
    exact absurd (fun x hx => (hlog x hx).1) (hraise log e hf hcons)
  | read e cont ihc =>
    obtain ⟨n, v, hn, hv⟩ := ih e ⟨hi, df, log, cont, hd, hf, hcons, fun x hx => (hlog x hx).1⟩
    have hlog' : ∀ x ∈ log ++ [(e, v)],
        Eval prog inputs x.1 x.2 ∧ ∃ n, scratch prog inputs n x.1 = some (.ok x.2) := by
      intro x hx
      rcases List.mem_append.mp hx with hx | hx
      · exact hlog x hx
      · rw [List.mem_singleton.mp hx]
        exact ⟨hv, n, hn⟩
    have hcons' := scratch_consistent fun x hx => (hlog' x hx).2
    obtain ⟨m, w, log', hm, rest⟩ := ihc (.ok v) (log ++ [(e, v)]) (hf.snoc v) hlog' hcons'
    refine ⟨max n m, w, log', ?_, rest⟩
    simp only [runScratch, scratch_mono (Nat.le_max_left n m) hn]
    exact runScratch_mono (fun d r hr => scratch_mono (Nat.le_max_right n m) hr) hm

omit [DecidableEq K] in
theorem scratch_eval (hl : Lawful prog) {d : Dep K} (h : Computable prog inputs d) :
    ∃ n v, scratch prog inputs n d = some (.ok v) ∧ Eval prog inputs d v := by
  obtain ⟨hacc, hquiet⟩ := h
  induction hacc with
  | intro d _ ih =>
    cases hi : inputs d with
    | some v => exact ⟨1, v, by simp [scratch, hi], .input hi⟩
    | none =>
      have hq := hquiet d .refl
      obtain ⟨df, hd, -⟩ := hq hi
      obtain ⟨n, w, log, hn, hf, hc, hlog⟩ := runScratch_eval hi hd hq
        (fun e he => ih e he fun x hx => hquiet x (hx.tail he)) (df.fn d.key) [] (.refl _) (by simp)
      refine ⟨n + 1, w, ?_, .derived hi hd hf hc hlog (hl.refl d w)⟩
      simp only [scratch, hi, hd]
      exact hn

end Nupp.Query
