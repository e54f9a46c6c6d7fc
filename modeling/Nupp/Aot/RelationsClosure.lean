import Mathlib.Data.List.Induction
import Mathlib.Tactic.SplitIfs
import Nupp.Aot.Relations
import Nupp.Lib.Difference

/-! What the distances of a closure say: each is implied by the pool, and none exceeds the weight of a walk that
repeats no term. -/

namespace Nupp.Aot.relations

open Difference

/-! Saturating addition. -/

theorem infinite_pos : 0 < INFINITE := by decide

theorem lt_of_add_lt {a b : ℤ} (h : add a b < INFINITE) : a < INFINITE ∧ b < INFINITE ∧ a + b ≤ add a b := by
  have hpos := infinite_pos
  rw [add] at h ⊢
  split_ifs at h ⊢ <;> omega

theorem add_mono {a b a' b' : ℤ} (ha : a ≤ a') (hb : b ≤ b') : add a b ≤ add a' b' := by
  have hpos := infinite_pos
  rw [add, add]
  split_ifs <;> omega

theorem add_le_sum {a b x y : ℤ} (ha : a ≤ x) (hb : b ≤ y) (hx : x < INFINITE) (hy : y < INFINITE)
    (hlow : -INFINITE ≤ x + y) (hhigh : x + y < INFINITE) : add a b ≤ x + y := by
  rw [add, if_neg (by omega), if_neg (by omega)]
  split_ifs <;> omega

theorem le_add_right {a b : ℤ} (ha : a < INFINITE) (hb : 0 ≤ b) : a ≤ add a b := by
  rw [add]
  split_ifs <;> omega

theorem le_add_left {a b : ℤ} (ha : 0 ≤ a) (hb : b ≤ INFINITE) : b ≤ add a b := by
  rw [add]
  split_ifs <;> omega

/-! Tables. -/

@[simp] theorem write_dist (t : Table) (i j : ℕ) (d : ℤ) (e m a b : ℕ) :
    (t.write i j d e m).dist a b = if a = i ∧ b = j then d else t.dist a b := rfl

@[simp] theorem write_edge (t : Table) (i j : ℕ) (d : ℤ) (e m a b : ℕ) :
    (t.write i j d e m).edge a b = if a = i ∧ b = j then e else t.edge a b := rfl

@[simp] theorem write_mid (t : Table) (i j : ℕ) (d : ℤ) (e m a b : ℕ) :
    (t.write i j d e m).mid a b = if a = i ∧ b = j then m else t.mid a b := rfl

/-- What one step of a loop keeps, the loop keeps. -/
theorem foldl_keeps {p : Table → Prop} {f : Table → ℕ → Table} {l : List ℕ} (hstep : ∀ t, p t → ∀ j ∈ l, p (f t j))
    {t : Table} (ht : p t) : p (l.foldl f t) := by
  induction l generalizing t with
  | nil => exact ht
  | cons j l ih =>
    exact ih (fun t ht i hi => hstep t ht i (List.mem_cons_of_mem j hi)) (hstep t ht j List.mem_cons_self)

theorem mem_positions {size p : ℕ} : p ∈ List.range' 1 size ↔ 1 ≤ p ∧ p ≤ size := by
  rw [List.mem_range'_1]
  omega

/-! Distances only go down. -/

def Below (t t' : Table) : Prop := ∀ i j, t'.dist i j ≤ t.dist i j

theorem Below.refl (t : Table) : Below t t := fun _ _ => le_rfl

theorem Below.trans {t t' t'' : Table} (h : Below t t') (h' : Below t' t'') : Below t t'' :=
  fun i j => (h' i j).trans (h i j)

theorem below_write {t : Table} {i j : ℕ} {d : ℤ} (e m : ℕ) (h : d ≤ t.dist i j) : Below t (t.write i j d e m) := by
  intro a b
  rw [write_dist]
  split
  · rename_i hab
    rw [hab.1, hab.2]
    exact h
  · exact le_rfl

theorem below_relaxCell (k i : ℕ) (x : ℤ) (t : Table) (j : ℕ) : Below t (relaxCell k i x t j) := by
  rw [relaxCell]
  split
  · rename_i hlt
    exact below_write 0 k hlt.le
  · exact Below.refl t

theorem below_foldl {f : Table → ℕ → Table} (hf : ∀ t j, Below t (f t j)) (l : List ℕ) (t : Table) :
    Below t (l.foldl f t) :=
  foldl_keeps (p := Below t) (fun t' ht' j _ => ht'.trans (hf t' j)) (Below.refl t)

theorem below_relaxRow (size k : ℕ) (t : Table) (i : ℕ) : Below t (relaxRow size k t i) := by
  rw [relaxRow]
  split
  · exact below_foldl (below_relaxCell k i _) _ t
  · exact Below.refl t

theorem below_relaxThrough (size : ℕ) (t : Table) (k : ℕ) : Below t (relaxThrough size t k) :=
  below_foldl (below_relaxRow size k) _ t

theorem below_relax (size : ℕ) (t : Table) : Below t (relax size t) := below_foldl (below_relaxThrough size) _ t

/-! Every distance is implied. -/

def SoundFor (u : ℕ → ℤ) (t : Table) : Prop := ∀ i j, t.dist i j < INFINITE → u j ≤ u i + t.dist i j

theorem SoundFor.write {u : ℕ → ℤ} {t : Table} (h : SoundFor u t) {i j : ℕ} {d : ℤ} (e m : ℕ)
    (hd : d < INFINITE → u j ≤ u i + d) : SoundFor u (t.write i j d e m) := by
  intro a b
  rw [write_dist]
  split
  · rename_i hab
    rw [hab.1, hab.2]
    exact hd
  · exact h a b

theorem SoundFor.relaxCell {u : ℕ → ℤ} {t : Table} (h : SoundFor u t) {k i : ℕ} {x : ℤ}
    (hx : x < INFINITE → u k ≤ u i + x) (j : ℕ) : SoundFor u (relaxCell k i x t j) := by
  rw [relations.relaxCell]
  split
  · refine h.write 0 k fun hlt => ?_
    obtain ⟨hleft, hright, hsum⟩ := lt_of_add_lt hlt
    have hik := hx hleft
    have hkj := h k j hright
    omega
  · exact h

theorem SoundFor.relaxThrough {u : ℕ → ℤ} {t : Table} (h : SoundFor u t) (size k : ℕ) :
    SoundFor u (relaxThrough size t k) := by
  refine foldl_keeps (fun t h i _ => ?_) h
  rw [relaxRow]
  split
  · exact foldl_keeps (fun t' h' j _ => h'.relaxCell (h i k) j) h
  · exact h

theorem SoundFor.relax {u : ℕ → ℤ} {t : Table} (h : SoundFor u t) (size : ℕ) : SoundFor u (relax size t) :=
  foldl_keeps (fun _ h k _ => h.relaxThrough size k) h

/-! One round of relaxation. -/

theorem relaxCell_le (k i : ℕ) (x : ℤ) (t : Table) (j : ℕ) :
    (relaxCell k i x t j).dist i j ≤ add x (t.dist k j) := by
  rw [relaxCell]
  split
  · rw [write_dist, if_pos ⟨rfl, rfl⟩]
  · rename_i hge
    exact not_lt.mp hge

theorem relaxRow_le {size k i j : ℕ} {t : Table} (hx : t.dist i k < INFINITE) (hj : 1 ≤ j ∧ j ≤ size) :
    (relaxRow size k t i).dist i j ≤ add (t.dist i k) (t.dist k j) := by
  obtain ⟨before, after, hsplit⟩ := List.append_of_mem (mem_positions.mpr hj)
  have hcell := below_relaxCell k i (t.dist i k)
  rw [relaxRow]
  rw [if_pos hx, hsplit, List.foldl_append, List.foldl_cons]
  refine (below_foldl hcell after _ i j).trans ((relaxCell_le _ _ _ _ _).trans ?_)
  exact add_mono le_rfl (below_foldl hcell before t k j)

theorem relaxThrough_le {size k i j : ℕ} {t : Table} (hx : t.dist i k < INFINITE) (hi : 1 ≤ i ∧ i ≤ size)
    (hj : 1 ≤ j ∧ j ≤ size) : (relaxThrough size t k).dist i j ≤ add (t.dist i k) (t.dist k j) := by
  obtain ⟨before, after, hsplit⟩ := List.append_of_mem (mem_positions.mpr hi)
  have hrow := below_relaxRow size k
  have hbefore := below_foldl hrow before t
  rw [relaxThrough, hsplit, List.foldl_append, List.foldl_cons]
  refine (below_foldl hrow after _ i j).trans ((relaxRow_le ((hbefore i k).trans_lt hx) hj).trans ?_)
  exact add_mono (hbefore i k) (hbefore k j)

/-! No distance exceeds the weight of a walk that repeats no vertex, once its intermediate vertices were relaxed. -/

def Covers (E : List (Edge ℕ)) (t : Table) (k : ℕ) : Prop :=
  ∀ x l y w, Walk E x l y w → l.Nodup → (∀ v ∈ l.tail, v ≤ k) → t.dist x y ≤ w

def InRange (E : List (Edge ℕ)) (size : ℕ) : Prop :=
  ∀ e ∈ E, (1 ≤ e.source ∧ e.source ≤ size) ∧ 1 ≤ e.target ∧ e.target ≤ size

theorem Covers.relaxThrough {E : List (Edge ℕ)} {t : Table} {size k : ℕ} (h : Covers E t k) (hrange : InRange E size)
    (hsize : (Difference.size E : ℤ) < INFINITE) : Covers E (relaxThrough size t (k + 1)) (k + 1) := by
  intro x l y w hwalk hnodup hl
  by_cases hk : (k + 1) ∈ l.tail
  · have hne : l ≠ [] := by
      rintro rfl
      cases hk
    obtain ⟨l', rfl⟩ := hwalk.eq_cons hne
    obtain ⟨p, q, rfl⟩ := List.append_of_mem (List.tail_cons ▸ hk)
    rw [show x :: (p ++ (k + 1) :: q) = (x :: p) ++ (k + 1) :: q from rfl] at hwalk hnodup
    obtain ⟨a, b, hfirst, hsecond, rfl⟩ := hwalk.split
    obtain ⟨hp, hq, hdisjoint⟩ := List.nodup_append.mp hnodup
    have hfirst_le : t.dist x (k + 1) ≤ a := by
      refine h x (x :: p) (k + 1) a hfirst hp fun v hv => ?_
      have hle := hl v (List.mem_append_left _ hv)
      have hne := hdisjoint v (List.mem_cons_of_mem x hv) (k + 1) List.mem_cons_self
      omega
    have hsecond_le : t.dist (k + 1) y ≤ b := by
      refine h (k + 1) ((k + 1) :: q) y b hsecond hq fun v hv => ?_
      have hle := hl v (List.mem_append_right _ (List.mem_cons_of_mem _ hv))
      have hne : v ≠ k + 1 := fun heq => (List.nodup_cons.mp hq).1 (heq ▸ hv)
      omega
    have ha := hfirst.natAbs_le hp
    have hb := hsecond.natAbs_le hq
    have hw := hwalk.natAbs_le hnodup
    obtain ⟨e, he, rfl⟩ := hwalk.source_mem (List.mem_append_left _ List.mem_cons_self)
    obtain ⟨e', he', rfl⟩ := hwalk.target_mem (by simp)
    refine (relaxThrough_le (by omega) (hrange e he).1 (hrange e' he').2).trans ?_
    exact add_le_sum hfirst_le hsecond_le (by omega) (by omega) (by omega) (by omega)
  · refine (below_relaxThrough size t (k + 1) x y).trans (h x l y w hwalk hnodup fun v hv => ?_)
    have hle := hl v hv
    have hne : v ≠ k + 1 := fun heq => hk (heq ▸ hv)
    omega

theorem covers_relax {E : List (Edge ℕ)} {t : Table} {size : ℕ} (h : Covers E t 0) (hrange : InRange E size)
    (hsize : (Difference.size E : ℤ) < INFINITE) : ∀ x l y w, Walk E x l y w → l.Nodup → (relax size t).dist x y ≤ w := by
  have hrounds : ∀ n, Covers E ((List.range' 1 n).foldl (relaxThrough size) t) n := by
    intro n
    induction n with
    | zero => exact h
    | succ n ih =>
      rw [List.range'_concat, Nat.one_mul, List.foldl_append, Nat.add_comm 1 n]
      exact ih.relaxThrough hrange hsize
  intro x l y w hwalk hnodup
  refine hrounds size x l y w hwalk hnodup fun v hv => ?_
  obtain ⟨e, he, rfl⟩ := hwalk.source_mem (List.mem_of_mem_tail hv)
  exact (hrange e he).1.2

/-! Loading the pool. -/

def edgeOf (indexOf : String → Option ℕ) (relation : Relation) : Option (Edge ℕ) :=
  match indexOf (key relation.right), indexOf (key relation.left) with
  | some i, some j => some ⟨i, j, relation.offset⟩
  | _, _ => none

def edges (indexOf : String → Option ℕ) (pool : List Relation) : List (Edge ℕ) := pool.filterMap (edgeOf indexOf)

theorem edgeOf_eq_some {indexOf : String → Option ℕ} {relation : Relation} {e : Edge ℕ}
    (h : edgeOf indexOf relation = some e) : indexOf (key relation.right) = some e.source ∧
      indexOf (key relation.left) = some e.target ∧ relation.offset = e.weight := by
  rw [edgeOf] at h
  split at h
  · cases h
    exact ⟨by assumption, by assumption, rfl⟩
  · cases h

theorem load_eq (indexOf : String → Option ℕ) (t : Table) (position : ℕ) (relation : Relation) :
    load indexOf t position relation = match edgeOf indexOf relation with
      | some e => if e.weight < t.dist e.source e.target then t.write e.source e.target e.weight position 0 else t
      | none => t := by
  rw [load, edgeOf]
  cases indexOf (key relation.right) with
  | none => rfl
  | some i => cases indexOf (key relation.left) <;> rfl

theorem loadAll_append (indexOf : String → Option ℕ) (pool : List Relation) (relation : Relation) :
    loadAll indexOf (pool ++ [relation]) =
      load indexOf (loadAll indexOf pool) (pool.length + 1) relation := by
  rw [loadAll, List.zipIdx_append, List.foldl_append, Nat.add_comm pool.length 1]
  rfl

/-- Where each entry of a table that was only loaded comes from. -/
def Loaded (indexOf : String → Option ℕ) (pool : List Relation) (t : Table) : Prop :=
  ∀ i j, t.mid i j = 0 ∧ ((t.edge i j = 0 ∧ t.dist i j = blank.dist i j) ∨
    ∃ relation, t.edge i j ≠ 0 ∧ pool[t.edge i j - 1]? = some relation ∧
      edgeOf indexOf relation = some ⟨i, j, t.dist i j⟩)

theorem loaded_loadAll (indexOf : String → Option ℕ) (pool : List Relation) :
    Loaded indexOf pool (loadAll indexOf pool) ∧ Below blank (loadAll indexOf pool) ∧
      ∀ e ∈ edges indexOf pool, (loadAll indexOf pool).dist e.source e.target ≤ e.weight := by
  induction pool using List.reverseRecOn with
  | nil =>
    refine ⟨fun i j => ⟨rfl, Or.inl ⟨rfl, rfl⟩⟩, Below.refl _, fun e he => ?_⟩
    cases he
  | append_singleton pool relation ih =>
    obtain ⟨hloaded, hbelow, hedges⟩ := ih
    have hkept : Loaded indexOf (pool ++ [relation]) (loadAll indexOf pool) := by
      intro i j
      obtain ⟨hmid, hblank | ⟨r, hne, hget, hedge⟩⟩ := hloaded i j
      · exact ⟨hmid, Or.inl hblank⟩
      · refine ⟨hmid, Or.inr ⟨r, hne, ?_, hedge⟩⟩
        have hlt := (List.getElem?_eq_some_iff.mp hget).1
        rw [List.getElem?_append_left hlt, hget]
    have hall : edges indexOf (pool ++ [relation]) = edges indexOf pool ++ (edgeOf indexOf relation).toList := by
      rw [edges, List.filterMap_append, edges]
      congr 1
    rw [loadAll_append, load_eq, hall]
    cases hedge : edgeOf indexOf relation with
    | none =>
      rw [Option.toList_none, List.append_nil]
      exact ⟨hkept, hbelow, hedges⟩
    | some e =>
      dsimp only
      by_cases hlt : e.weight < (loadAll indexOf pool).dist e.source e.target
      · have hdown := below_write (pool.length + 1) 0 hlt.le
        rw [if_pos hlt]
        refine ⟨fun i j => ?_, hbelow.trans hdown, fun e' he' => ?_⟩
        · rw [write_mid, write_edge, write_dist]
          by_cases hij : i = e.source ∧ j = e.target
          · rw [if_pos hij, if_pos hij, if_pos hij]
            refine ⟨rfl, Or.inr ⟨relation, Nat.succ_ne_zero _, ?_, ?_⟩⟩
            · rw [Nat.add_sub_cancel, List.getElem?_concat_length]
            · rw [hij.1, hij.2, hedge]
          · rw [if_neg hij, if_neg hij, if_neg hij]
            exact hkept i j
        · rcases List.mem_append.mp he' with he' | he'
          · exact (hdown _ _).trans (hedges e' he')
          · rw [Option.toList_some, List.mem_singleton] at he'
            rw [he', write_dist, if_pos ⟨rfl, rfl⟩]
      · rw [if_neg hlt]
        refine ⟨hkept, hbelow, fun e' he' => ?_⟩
        rcases List.mem_append.mp he' with he' | he'
        · exact hedges e' he'
        · rw [Option.toList_some, List.mem_singleton] at he'
          rw [he']
          exact not_lt.mp hlt

theorem soundFor_loadAll {indexOf : String → Option ℕ} {pool : List Relation} {u : ℕ → ℤ}
    (hu : Satisfies (edges indexOf pool) u) : SoundFor u (loadAll indexOf pool) := by
  intro i j hlt
  obtain ⟨hloaded, -, -⟩ := loaded_loadAll indexOf pool
  obtain ⟨-, ⟨-, hblank⟩ | ⟨relation, -, hget, hedge⟩⟩ := hloaded i j
  · rw [hblank, blank] at hlt ⊢
    dsimp only at hlt ⊢
    by_cases hij : i = j
    · rw [hij, if_pos rfl]
      omega
    · rw [if_neg hij] at hlt
      exact absurd hlt (lt_irrefl _)
  · exact hu _ (List.mem_filterMap.mpr ⟨relation, List.mem_of_getElem? hget, hedge⟩)

theorem covers_loadAll {indexOf : String → Option ℕ} {pool : List Relation} {count : ℕ}
    (hpos : InRange (edges indexOf pool) count) :
    Covers (edges indexOf pool) (loadAll indexOf pool) 0 := by
  obtain ⟨-, hbelow, hedges⟩ := loaded_loadAll indexOf pool
  intro x l y w hwalk _ hl
  cases hwalk with
  | nil x =>
    have hself := hbelow x x
    rw [blank] at hself
    dsimp only at hself
    rwa [if_pos rfl] at hself
  | cons edge rest =>
    cases rest with
    | nil =>
      rw [add_zero]
      exact hedges _ edge
    | cons edge' rest' =>
      have hzero := hl _ List.mem_cons_self
      have hrange := (hpos _ edge').1.1
      dsimp only at hrange
      omega

end Nupp.Aot.relations
