import Nupp.Aot.RelationsClosure

/-! The relations a least path is made of. Each round overwrites intermediates of earlier ones, but in the end the
intermediate of a path lies above those of its two halves, so following them comes to an end. -/

namespace Nupp.Aot.relations

open Difference

section

variable {E : List (Edge ℕ)} {indexOf : String → Option ℕ} {pool : List Relation} {t : Table}

/-- An entry with no intermediate is empty or one relation. -/
def Direct (indexOf : String → Option ℕ) (pool : List Relation) (t : Table) (i j : ℕ) : Prop :=
  (t.edge i j = 0 ∧ t.dist i j = blank.dist i j) ∨
    ∃ relation, t.edge i j ≠ 0 ∧ pool[t.edge i j - 1]? = some relation ∧
      edgeOf indexOf relation = some ⟨i, j, t.dist i j⟩

/-- An entry through `m` was the sum of two others, whose intermediates are below `m` unless they went down since. -/
def Halves (t : Table) (i m j : ℕ) : Prop :=
  ∃ x y, t.dist i j = add x y ∧ add x y < INFINITE ∧ t.dist i m ≤ x ∧ t.dist m j ≤ y ∧
    (t.mid i m < m ∨ t.dist i m < x) ∧ (t.mid m j < m ∨ t.dist m j < y)

structure Traced (E : List (Edge ℕ)) (indexOf : String → Option ℕ) (pool : List Relation) (k : ℕ) (t : Table) :
    Prop where
  mid_le : ∀ i j, t.mid i j ≤ k
  sound : ∀ u, Satisfies E u → SoundFor u t
  dist_le : ∀ i j, t.dist i j ≤ INFINITE
  direct : ∀ i j, t.mid i j = 0 → Direct indexOf pool t i j
  halves : ∀ i j, t.mid i j ≠ 0 → Halves t i (t.mid i j) j

/-- In the round of `k` nothing of its row or column goes through `k`. -/
def Fresh (k : ℕ) (t : Table) : Prop := ∀ a, t.mid a k < k ∧ t.mid k a < k

theorem dist_self_nonneg {k : ℕ} (h : Traced E indexOf pool k t) {u : ℕ → ℤ} (hu : Satisfies E u) (i : ℕ) :
    0 ≤ t.dist i i := by
  by_contra hneg
  have hpos := infinite_pos
  have hself := h.sound u hu i i (by omega)
  omega

theorem Halves.write {i j a m b k : ℕ} {d : ℤ} (h : Halves t a m b) (hab : ¬(a = i ∧ b = j)) (hd : d < t.dist i j) :
    Halves (t.write i j d 0 k) a m b := by
  obtain ⟨x, y, hdist, hfinite, hx, hy, hleft, hright⟩ := h
  refine ⟨x, y, ?_, hfinite, ?_⟩
  · rw [write_dist, if_neg hab, hdist]
  · simp only [write_dist, write_mid]
    refine ⟨?_, ?_, ?_, ?_⟩
    · split
      · rename_i ham
        obtain ⟨rfl, rfl⟩ := ham
        omega
      · exact hx
    · split
      · rename_i hmb
        obtain ⟨rfl, rfl⟩ := hmb
        omega
      · exact hy
    · by_cases ham : a = i ∧ m = j
      · rw [if_pos ham, if_pos ham]
        obtain ⟨rfl, rfl⟩ := ham
        exact Or.inr (hd.trans_le hx)
      · rw [if_neg ham, if_neg ham]
        exact hleft
    · by_cases hmb : m = i ∧ b = j
      · rw [if_pos hmb, if_pos hmb]
        obtain ⟨rfl, rfl⟩ := hmb
        exact Or.inr (hd.trans_le hy)
      · rw [if_neg hmb, if_neg hmb]
        exact hright

/-- The row and the column of `k` do not change in its round: they could only gain a cycle. -/
theorem Traced.relaxCell {k i : ℕ} {x : ℤ} {u : ℕ → ℤ} (h : Traced E indexOf pool (k + 1) t) (hu : Satisfies E u)
    (hfresh : Fresh (k + 1) t) (hx : t.dist i (k + 1) = x) (hfinite : x < INFINITE) (j : ℕ) :
    Traced E indexOf pool (k + 1) (relaxCell (k + 1) i x t j) ∧ Fresh (k + 1) (relaxCell (k + 1) i x t j) ∧
      (relaxCell (k + 1) i x t j).dist i (k + 1) = x := by
  rw [relations.relaxCell]
  by_cases hlt : add x (t.dist (k + 1) j) < t.dist i j
  · have hself := dist_self_nonneg h hu (k + 1)
    have hj : j ≠ k + 1 := by
      rintro rfl
      rw [hx] at hlt
      exact absurd hlt (not_lt.mpr (le_add_right hfinite hself))
    have hi : i ≠ k + 1 := by
      rintro rfl
      rw [hx] at hself
      exact absurd hlt (not_lt.mpr (le_add_left hself (h.dist_le _ _)))
    have hsum : add x (t.dist (k + 1) j) < INFINITE := hlt.trans_le (h.dist_le i j)
    rw [if_pos hlt]
    refine ⟨⟨fun a b => ?_, fun u hu => ?_, fun a b => ?_, fun a b hmid => ?_, fun a b hmid => ?_⟩, fun a => ?_, ?_⟩
    · rw [write_mid]
      split
      · exact le_rfl
      · exact h.mid_le a b
    · have hcell := (h.sound u hu).relaxCell (k := k + 1) (i := i) (x := x)
        (fun hlt => hx ▸ h.sound u hu i (k + 1) (hx.symm ▸ hlt)) j
      rwa [relations.relaxCell, if_pos hlt] at hcell
    · exact (below_write 0 (k + 1) hlt.le a b).trans (h.dist_le a b)
    · rw [write_mid] at hmid
      split at hmid
      · exact absurd hmid (Nat.succ_ne_zero k)
      · rename_i hab
        have hdirect := h.direct a b hmid
        rw [Direct, write_edge, write_dist, if_neg hab, if_neg hab]
        exact hdirect
    · rw [write_mid] at hmid ⊢
      by_cases hab : a = i ∧ b = j
      · obtain ⟨rfl, rfl⟩ := hab
        rw [if_pos ⟨rfl, rfl⟩]
        refine ⟨x, t.dist (k + 1) b, ?_, hsum, ?_⟩
        · rw [write_dist, if_pos ⟨rfl, rfl⟩]
        · rw [write_dist, write_dist, write_mid, write_mid, if_neg fun hk => hj hk.2.symm, if_neg fun hk => hi hk.1.symm,
            if_neg fun hk => hj hk.2.symm, if_neg fun hk => hi hk.1.symm]
          exact ⟨hx.le, le_rfl, Or.inl (hfresh a).1, Or.inl (hfresh b).2⟩
      · rw [if_neg hab] at hmid ⊢
        exact (h.halves a b hmid).write hab hlt
    · rw [write_mid, write_mid, if_neg fun hk => hj hk.2.symm, if_neg fun hk => hi hk.1.symm]
      exact hfresh a
    · rw [write_dist, if_neg fun hk => hj hk.2.symm, hx]
  · rw [if_neg hlt]
    exact ⟨h, hfresh, hx⟩

theorem Traced.relaxThrough {k : ℕ} {u : ℕ → ℤ} (h : Traced E indexOf pool k t) (hu : Satisfies E u) (size : ℕ) :
    Traced E indexOf pool (k + 1) (relaxThrough size t (k + 1)) := by
  have hstart : Traced E indexOf pool (k + 1) t ∧ Fresh (k + 1) t :=
    ⟨⟨fun i j => Nat.le_succ_of_le (h.mid_le i j), h.sound, h.dist_le, h.direct, h.halves⟩,
      fun a => ⟨Nat.lt_succ_of_le (h.mid_le a (k + 1)), Nat.lt_succ_of_le (h.mid_le (k + 1) a)⟩⟩
  refine (foldl_keeps (p := fun t => Traced E indexOf pool (k + 1) t ∧ Fresh (k + 1) t) ?_ hstart).1
  rintro t ⟨h, hfresh⟩ i -
  rw [relaxRow]
  split
  · rename_i hfinite
    have hrow := foldl_keeps (p := fun t' => Traced E indexOf pool (k + 1) t' ∧ Fresh (k + 1) t' ∧
        t'.dist i (k + 1) = t.dist i (k + 1)) (f := relations.relaxCell (k + 1) i (t.dist i (k + 1)))
      (l := List.range' 1 size) (fun t' ht' j _ => ht'.1.relaxCell hu ht'.2.1 ht'.2.2 hfinite j) ⟨h, hfresh, rfl⟩
    exact ⟨hrow.1, hrow.2.1⟩
  · exact ⟨h, hfresh⟩

theorem Traced.relax {u : ℕ → ℤ} (h : Traced E indexOf pool 0 t) (hu : Satisfies E u) (size : ℕ) :
    Traced E indexOf pool size (relax size t) := by
  have hrounds : ∀ n, Traced E indexOf pool n ((List.range' 1 n).foldl (relations.relaxThrough size) t) := by
    intro n
    induction n with
    | zero => exact h
    | succ n ih =>
      rw [List.range'_concat, Nat.one_mul, List.foldl_append, Nat.add_comm 1 n]
      exact ih.relaxThrough hu size
  exact hrounds size

theorem traced_loadAll (indexOf : String → Option ℕ) (pool : List Relation) :
    Traced (edges indexOf pool) indexOf pool 0 (loadAll indexOf pool) := by
  obtain ⟨hloaded, hbelow, -⟩ := loaded_loadAll indexOf pool
  refine ⟨fun i j => (hloaded i j).1.le, fun u hu => soundFor_loadAll hu, fun i j => (hbelow i j).trans ?_,
    fun i j _ => (hloaded i j).2, fun i j hmid => absurd (hloaded i j).1 hmid⟩
  rw [blank]
  dsimp only
  split
  · exact infinite_pos.le
  · exact le_rfl

/-! The end of the relaxation. -/

/-- The least bound that follows is the distance. -/
def Tight (E : List (Edge ℕ)) (t : Table) : Prop :=
  ∀ i j c, (∀ u, Satisfies E u → u j ≤ u i + c) → t.dist i j ≤ c

theorem Traced.step {k : ℕ} (h : Traced E indexOf pool k t) (htight : Tight E t) {i j : ℕ} (hmid : t.mid i j ≠ 0) :
    t.dist i (t.mid i j) < INFINITE ∧ t.dist (t.mid i j) j < INFINITE ∧
      t.dist i (t.mid i j) + t.dist (t.mid i j) j ≤ t.dist i j ∧
      t.mid i (t.mid i j) < t.mid i j ∧ t.mid (t.mid i j) j < t.mid i j := by
  obtain ⟨x, y, hdist, hfinite, hx, hy, hleft, hright⟩ := h.halves i j hmid
  obtain ⟨hxfinite, hyfinite, hsum⟩ := lt_of_add_lt hfinite
  have hleast := htight i j (t.dist i (t.mid i j) + t.dist (t.mid i j) j) fun u hu => by
    have hfirst := h.sound u hu i (t.mid i j) (by omega)
    have hsecond := h.sound u hu (t.mid i j) j (by omega)
    omega
  refine ⟨by omega, by omega, by omega, ?_, ?_⟩
  · rcases hleft with hlt | hlt
    · exact hlt
    · omega
  · rcases hright with hlt | hlt
    · exact hlt
    · omega

/-- What the relation at a position of the pool says of the positions of its terms. -/
def Holds (indexOf : String → Option ℕ) (pool : List Relation) (u : ℕ → ℤ) (position : ℕ) : Prop :=
  ∀ relation, pool[position - 1]? = some relation → ∀ e, edgeOf indexOf relation = some e →
    u e.target ≤ u e.source + e.weight

/-- With fuel above its intermediate, an entry gives the relations of its path, and these already imply it. -/
theorem Traced.contributing {k n : ℕ} (h : Traced E indexOf pool k t) (htight : Tight E t) {i j : ℕ}
    (hn : t.mid i j < n) (hfinite : t.dist i j < INFINITE) :
    ∃ new, (∀ fuel, t.mid i j < fuel → ∀ out, contributing t fuel i j out = some (out ++ new)) ∧
      ∀ u, (∀ p ∈ new, Holds indexOf pool u p) → u j ≤ u i + t.dist i j := by
  induction n generalizing i j with
  | zero => exact absurd hn (Nat.not_lt_zero _)
  | succ n ih =>
    by_cases hmid : t.mid i j = 0
    · have hlast : ∀ fuel, t.mid i j < fuel → ∀ out, relations.contributing t fuel i j out =
          some (if t.edge i j ≠ 0 then out ++ [t.edge i j] else out) := by
        intro fuel hfuel out
        obtain ⟨fuel, rfl⟩ := Nat.exists_eq_succ_of_ne_zero (Nat.ne_zero_of_lt hfuel)
        rw [relations.contributing, if_neg (not_not.mpr hmid)]
      rcases h.direct i j hmid with ⟨hedge, hblank⟩ | ⟨relation, hedge, hget, hof⟩
      · refine ⟨[], fun fuel hfuel out => ?_, fun u _ => ?_⟩
        · rw [hlast fuel hfuel, if_neg (not_not.mpr hedge), List.append_nil]
        · rw [hblank, blank] at hfinite ⊢
          dsimp only at hfinite ⊢
          by_cases hij : i = j
          · rw [hij, if_pos rfl, add_zero]
          · rw [if_neg hij] at hfinite
            exact absurd hfinite (lt_irrefl _)
      · refine ⟨[t.edge i j], fun fuel hfuel out => ?_, fun u hu => ?_⟩
        · rw [hlast fuel hfuel, if_pos hedge]
        · exact hu _ (List.mem_singleton.mpr rfl) relation hget _ hof
    · obtain ⟨hleftfinite, hrightfinite, hsum, hleft, hright⟩ := h.step htight hmid
      obtain ⟨new, hnew, himplies⟩ := ih (by omega) hleftfinite
      obtain ⟨new', hnew', himplies'⟩ := ih (by omega) hrightfinite
      refine ⟨new ++ new', fun fuel hfuel out => ?_, fun u hu => ?_⟩
      · obtain ⟨fuel, rfl⟩ := Nat.exists_eq_succ_of_ne_zero (Nat.ne_zero_of_lt hfuel)
        rw [relations.contributing, if_pos hmid, hnew fuel (by omega) out, ← List.append_assoc]
        exact hnew' fuel (by omega) _
      · have hfirst := himplies u fun p hp => hu p (List.mem_append_left _ hp)
        have hsecond := himplies' u fun p hp => hu p (List.mem_append_right _ hp)
        omega

theorem mem_firstOccurrences {l seen : List ℕ} {p : ℕ} :
    p ∈ l.foldl (fun seen position => if position ∈ seen then seen else seen ++ [position]) seen ↔
      p ∈ seen ∨ p ∈ l := by
  induction l generalizing seen with
  | nil => simp
  | cons a l ih =>
    rw [List.foldl_cons, ih, List.mem_cons]
    by_cases ha : a ∈ seen
    · rw [if_pos ha]
      constructor
      · rintro (hp | hp)
        · exact Or.inl hp
        · exact Or.inr (Or.inr hp)
      · rintro (hp | rfl | hp)
        · exact Or.inl hp
        · exact Or.inl ha
        · exact Or.inr hp
    · rw [if_neg ha, List.mem_append, List.mem_singleton, or_assoc]

theorem mem_usedRelations {indices : List ℕ} {relation : Relation} :
    relation ∈ usedRelations pool indices ↔ ∃ p ∈ indices, pool[p - 1]? = some relation := by
  rw [usedRelations, List.mem_filterMap]
  refine exists_congr fun p => and_congr_left fun _ => ?_
  rw [mem_firstOccurrences]
  simp

end

end Nupp.Aot.relations
