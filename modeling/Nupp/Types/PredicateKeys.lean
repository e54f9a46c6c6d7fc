import Nupp.Types.PredicateTest

/-! A canonical key tells which refinement it is the key of. -/

namespace Nupp.predicate

open Double Delimited Nupp.Data

section Texts

theorem escaped_cons {quote b : UInt8} {t : Bytes} (hb : b ≠ 92) :
    escaped quote (b :: t) = (b != quote && escaped quote t) := by
  cases t with
  | nil => simp [escaped, hb]
  | cons c t => simp [escaped, hb]

/-- A quoted body ends at the first quote that stands for itself. -/
theorem escaped_cut {quote : UInt8} (hquote : quote ≠ 92) {s t x y : Bytes}
    (hs : escaped quote s = true) (ht : escaped quote t = true)
    (h : s ++ quote :: x = t ++ quote :: y) : s = t ∧ x = y := by
  have hnil : ∀ {t x y : Bytes}, escaped quote t = true → quote :: x = t ++ quote :: y →
      t = [] ∧ x = y := by
    intro t x y ht h
    cases t with
    | nil => exact ⟨rfl, (List.cons.inj h).2⟩
    | cons c t =>
      obtain ⟨rfl, -⟩ := List.cons.inj h
      simp [escaped_cons hquote] at ht
  induction s using escaped.induct generalizing t with
  | case1 =>
    obtain ⟨rfl, rfl⟩ := hnil ht h
    exact ⟨rfl, rfl⟩
  | case2 b =>
    simp only [escaped, Bool.and_eq_true, bne_iff_ne] at hs
    cases t with
    | nil => exact absurd (List.cons.inj h).1 hs.2
    | cons c t =>
      simp only [List.cons_append, List.nil_append, List.cons.injEq] at h
      obtain ⟨rfl, h⟩ := h
      rw [escaped_cons hs.1, Bool.and_eq_true] at ht
      obtain ⟨rfl, rfl⟩ := hnil ht.2 h
      exact ⟨rfl, rfl⟩
  | case3 c rest ih =>
    rw [escaped_pair] at hs
    rcases t with _ | ⟨d, _ | ⟨e, t⟩⟩
    · exact absurd (List.cons.inj h).1.symm hquote
    · obtain ⟨rfl, -⟩ := List.cons.inj h
      simp [escaped] at ht
    · simp only [List.cons_append, List.cons.injEq] at h
      obtain ⟨rfl, rfl, h⟩ := h
      rw [escaped_pair] at ht
      obtain ⟨rfl, rfl⟩ := ih hs ht h
      exact ⟨rfl, rfl⟩
  | case4 b c rest hb ih =>
    rw [escaped_cons hb, Bool.and_eq_true, bne_iff_ne] at hs
    cases t with
    | nil => exact absurd (List.cons.inj h).1 hs.1
    | cons d t =>
      simp only [List.cons_append, List.cons.injEq] at h
      obtain ⟨rfl, h⟩ := h
      rw [escaped_cons hb, Bool.and_eq_true] at ht
      obtain ⟨rfl, rfl⟩ := ih hs.2 ht.2 h
      exact ⟨rfl, rfl⟩

/-- A run of letters other than `stop` ends where `stop` stands. -/
theorem run_cut {stop : UInt8} {s t x y : Bytes} (hs : stop ∉ s) (ht : stop ∉ t)
    (h : s ++ stop :: x = t ++ stop :: y) : s = t ∧ x = y := by
  have hplain : ∀ {u : Bytes}, stop ∉ u → ∀ b ∈ u, (b != stop) = true := by
    intro u hu b hb
    exact bne_iff_ne.mpr fun heq => hu (heq ▸ hb)
  obtain ⟨rfl, hrest⟩ := run_unique (p := fun b => b != stop) (hplain hs) (hplain ht)
    (stops_cons.mpr (by simp)) (stops_cons.mpr (by simp)) h
  exact ⟨rfl, (List.cons.inj hrest).2⟩

theorem quote_ne_slash {quote : UInt8} (h : quote ∈ [34, 39]) : quote ≠ 92 := by
  rintro rfl
  simp at h

/-- A word is no other kind of literal, whatever stands behind it. -/
theorem word_ne {s x z : Bytes} (plain : ∀ b ∈ s, b ∉ [34, 39, 40, 41]) :
    s ++ 41 :: x ≠ 45 :: 40 :: z ∧ ∀ quote ∈ [34, 39], s ++ 41 :: x ≠ quote :: z := by
  refine ⟨fun h => ?_, fun quote hquote h => ?_⟩
  · rcases s with _ | ⟨b, _ | ⟨c, s⟩⟩
    · cases h
    · cases h
    · simp only [List.cons_append, List.cons.injEq] at h
      exact plain c (by simp) (by simp [h.2.1])
  · cases s with
    | nil =>
      obtain ⟨rfl, -⟩ := List.cons.inj h
      simp at hquote
    | cons b s =>
      obtain ⟨rfl, -⟩ := List.cons.inj h
      exact plain b (by simp) (by simp only [List.mem_cons, List.not_mem_nil, or_false] at hquote ⊢; tauto)

theorem negative_append {s x : Bytes} :
    ascii "-(" ++ s ++ ascii ")" ++ 41 :: x = 45 :: 40 :: (s ++ 41 :: 41 :: x) := by
  simp [ascii]

theorem quoted_append {quote : UInt8} {body x : Bytes} :
    quote :: body ++ [quote] ++ 41 :: x = quote :: (body ++ quote :: 41 :: x) := by
  simp

/-- A literal ends where the parenthesis behind it stands. -/
theorem written_cut {s t x y : Bytes} (hs : Written s) (ht : Written t)
    (h : s ++ 41 :: x = t ++ 41 :: y) : s = t ∧ x = y := by
  induction hs generalizing t x y with
  | word plain =>
    cases ht with
    | word plain' =>
      refine run_cut (fun hmem => plain 41 hmem (by simp)) (fun hmem => plain' 41 hmem (by simp)) h
    | negative inner =>
      rw [negative_append] at h
      exact absurd h (word_ne plain).1
    | quoted hquote hbody =>
      rw [quoted_append] at h
      exact absurd h ((word_ne plain).2 _ hquote)
  | negative inner ih =>
    rw [negative_append] at h
    cases ht with
    | word plain' => exact absurd h.symm (word_ne plain').1
    | negative inner' =>
      rw [negative_append] at h
      obtain ⟨rfl, hrest⟩ := ih inner' (List.cons.inj (List.cons.inj h).2).2
      exact ⟨rfl, (List.cons.inj hrest).2⟩
    | quoted hquote hbody =>
      rw [quoted_append] at h
      obtain ⟨rfl, -⟩ := List.cons.inj h
      simp at hquote
  | quoted hquote hbody =>
    rw [quoted_append] at h
    cases ht with
    | word plain' => exact absurd h.symm ((word_ne plain').2 _ hquote)
    | negative inner' =>
      rw [negative_append] at h
      obtain ⟨rfl, -⟩ := List.cons.inj h
      simp at hquote
    | quoted hquote' hbody' =>
      rw [quoted_append] at h
      obtain ⟨rfl, h⟩ := List.cons.inj h
      obtain ⟨rfl, hrest⟩ := escaped_cut (quote_ne_slash hquote) hbody hbody' h
      exact ⟨rfl, (List.cons.inj hrest).2⟩

/-- What may stand behind a name: the end, or a letter that no name has. -/
def AfterName (z : Bytes) : Prop := Stops (fun b => decide (b ∉ [32, 41, 46])) z

theorem name_delimits : Delimits Set.univ Name.bytes AfterName := by
  rintro ⟨s, hs, hs'⟩ - ⟨t, ht, ht'⟩ - x y hx hy h
  obtain ⟨rfl, rfl⟩ := run_unique (fun b hb => decide_eq_true (hs b hb))
    (fun b hb => decide_eq_true (ht b hb)) hx hy h
  exact ⟨rfl, rfl⟩

/-- A path ends where the space or the parenthesis behind it stands. -/
theorem path_cut {p q : List Name} {c d : UInt8} {x y : Bytes} (hc : c ∈ [32, 41])
    (hd : d ∈ [32, 41]) (h : pathText p ++ c :: x = pathText q ++ d :: y) :
    p = q ∧ c :: x = d :: y := by
  have hafter : ∀ {c : UInt8} {x : Bytes}, c ∈ [32, 41] → AfterName (c :: x) := by
    intro c x hc
    refine stops_cons.mpr (decide_eq_false fun h => h ?_)
    simp only [List.mem_cons, List.not_mem_nil, or_false] at hc ⊢
    tauto
  have hdot : ∀ {c : UInt8} {x : Bytes}, c ∈ [32, 41] → (c :: x).head? ≠ some 46 := by
    rintro c x hc heq
    rw [List.head?_cons, Option.some.injEq] at heq
    subst heq
    simp at hc
  have hname : ∀ {c : UInt8} {x : Bytes}, c ∈ [32, 41] → ∀ a ∈ Set.univ, ∀ z,
      c :: x ≠ Name.bytes a ++ z := by
    intro c x hc a _ z heq
    obtain ⟨b, s, hs⟩ := List.exists_cons_of_ne_nil a.ne_nil
    rw [hs, List.cons_append] at heq
    obtain ⟨rfl, -⟩ := List.cons.inj heq
    refine a.plain c (hs ▸ List.mem_cons_self ..) ?_
    simp only [List.mem_cons, List.not_mem_nil, or_false] at hc ⊢
    tauto
  exact joined_unique name_delimits (fun z => stops_cons.mpr rfl) (hafter hc) (hafter hd) (hdot hc)
    (hdot hd) (hname hc) (hname hd) (fun _ _ => trivial) (fun _ _ => trivial) (List.cons.inj h).2

end Texts

section Orders

theorem less_irrefl (s : Bytes) : less s s = false := by
  induction s with
  | nil => rfl
  | cons a s ih => simp [less, ih]

theorem less_trans {s t u : Bytes} (hst : less s t = true) (htu : less t u = true) :
    less s u = true := by
  induction s generalizing t u with
  | nil =>
    cases u with
    | nil => cases t <;> simp [less] at htu
    | cons c u => rfl
  | cons a s ih =>
    rcases t with _ | ⟨b, t⟩
    · simp [less] at hst
    rcases u with _ | ⟨c, u⟩
    · simp [less] at htu
    simp only [less, Bool.or_eq_true, decide_eq_true_eq, Bool.and_eq_true] at hst htu ⊢
    rcases hst with hst | ⟨rfl, hst⟩ <;> rcases htu with htu | ⟨rfl, htu⟩
    · exact .inl (UInt8.lt_trans hst htu)
    · exact .inl hst
    · exact .inl htu
    · exact .inr ⟨rfl, ih hst htu⟩

theorem before_irrefl (a : Node) : before a a = false := by simp [before, less_irrefl]

theorem before_trans {a b c : Node} (hab : before a b = true) (hbc : before b c = true) :
    before a c = true := by
  simp only [before, Bool.or_eq_true, decide_eq_true_eq, Bool.and_eq_true] at hab hbc ⊢
  rcases hab with hab | ⟨hab, hkey⟩ <;> rcases hbc with hbc | ⟨hbc, hkey'⟩
  · exact .inl (hab.trans hbc)
  · exact .inl (hbc ▸ hab)
  · exact .inl (hab ▸ hbc)
  · exact .inr ⟨hab.trans hbc, less_trans hkey hkey'⟩

/-- Parts in canonical order at every level, a run leaning to the right. -/
def Canonical : Node → Prop
  | .junction op a b => (∀ c d, a ≠ .junction op c d) ∧ Canonical a ∧ Canonical b ∧
    ∀ p ∈ flatten op b, before a p = true
  | .not a | .len _ a => Canonical a
  | _ => True

variable {ι : Type} (host : Host ι)

/-- Every literal means its constant, and none is a number that is none. -/
def Reads : Node → Prop
  | .cmp _ _ literal c => host.source literal.text = some c ∧ c ≠ .number .nan
  | .not a | .len _ a => Reads a
  | .junction _ a b => Reads a ∧ Reads b
  | _ => True

theorem flatten_eq_self {op : Junction} {n : Node} (h : ∀ c d, n ≠ .junction op c d) :
    flatten op n = [n] := by
  cases n with
  | junction op' c d =>
    rw [flatten, if_neg]
    rintro rfl
    exact h c d rfl
  | _ => rfl

theorem flatten_junction {op : Junction} {a b : Node} (h : Canonical (.junction op a b)) :
    flatten op (.junction op a b) = a :: flatten op b := by
  rw [flatten, if_pos rfl, flatten_eq_self h.1]
  rfl

theorem flatten_ne_nil (op : Junction) (n : Node) : flatten op n ≠ [] := by
  induction n with
  | junction op' a b iha ihb =>
    rw [flatten]
    split
    · simp [iha]
    · simp
  | _ => simp [flatten]

theorem canonical_part {op : Junction} {n p : Node} (h : Canonical n) (hp : p ∈ flatten op n) :
    Canonical p := by
  induction n with
  | junction op' a b iha ihb =>
    rw [flatten] at hp
    split at hp
    · rcases List.mem_append.mp hp with hp | hp
      · exact iha h.2.1 hp
      · exact ihb h.2.2.1 hp
    · rwa [List.mem_singleton.mp hp]
  | _ => rwa [List.mem_singleton.mp hp]

variable {host} in
theorem reads_part {op : Junction} {n p : Node} (h : Reads host n) (hp : p ∈ flatten op n) :
    Reads host p := by
  induction n with
  | junction op' a b iha ihb =>
    rw [flatten] at hp
    split at hp
    · rcases List.mem_append.mp hp with hp | hp
      · exact iha h.1 hp
      · exact ihb h.2 hp
    · rwa [List.mem_singleton.mp hp]
  | _ => rwa [List.mem_singleton.mp hp]

theorem pairwise_parts {op : Junction} {n : Node} (h : Canonical n) :
    (flatten op n).Pairwise fun a b => before a b = true := by
  induction n with
  | junction op' a b iha ihb =>
    by_cases hop : op' = op
    · subst hop
      rw [flatten_junction h]
      exact List.pairwise_cons.mpr ⟨h.2.2.2, ihb h.2.2.1⟩
    · rw [flatten, if_neg hop]
      exact List.pairwise_singleton _ _
  | _ => exact List.pairwise_singleton _ _

theorem eq_of_flatten_single {op : Junction} {n m : Node} (hm : Canonical m)
    (h : [n] = flatten op m) : n = m := by
  by_cases hjunction : ∃ c d, m = .junction op c d
  · obtain ⟨c, d, rfl⟩ := hjunction
    rw [flatten_junction hm] at h
    exact absurd (List.cons.inj h).2.symm (flatten_ne_nil _ _)
  · rw [flatten_eq_self fun c d heq => hjunction ⟨c, d, heq⟩] at h
    exact (List.cons.inj h).1

/-- A canonical node is what its parts make. -/
theorem eq_of_flatten {op : Junction} {n m : Node} (hn : Canonical n) (hm : Canonical m)
    (h : flatten op n = flatten op m) : n = m := by
  induction n generalizing m with
  | junction op' a b iha ihb =>
    by_cases hop : op' = op
    · subst hop
      rw [flatten_junction hn] at h
      by_cases hjunction : ∃ c d, m = .junction op' c d
      · obtain ⟨c, d, rfl⟩ := hjunction
        rw [flatten_junction hm] at h
        obtain ⟨rfl, hrest⟩ := List.cons.inj h
        rw [ihb hn.2.2.1 hm.2.2.1 hrest]
      · rw [flatten_eq_self fun c d heq => hjunction ⟨c, d, heq⟩] at h
        exact absurd (List.cons.inj h).2 (flatten_ne_nil _ _)
    · rw [flatten, if_neg hop] at h
      exact eq_of_flatten_single hm h
  | _ => exact eq_of_flatten_single hm h

end Orders

section Forms

/-- What a key begins with. -/
inductive Form
  | const (value : Bool)
  | not
  | junction (op : Junction)
  | cmp
  | typeis
  | len
  | integral
  | truthy
deriving DecidableEq

def Form.opening : Form → String
  | .const value => if value then "#t" else "#f"
  | .not => "(not "
  | .junction .and => "(and "
  | .junction .or => "(or "
  | .cmp => "(cmp "
  | .typeis => "(typeis "
  | .len => "(len "
  | .integral => "(integral "
  | .truthy => "(truthy "

theorem opening_injective {f g : Form} (h : ascii f.opening <+: ascii g.opening) : f = g := by
  revert h
  rcases f with (_ | _) | _ | (_ | _) | _ | _ | _ | _ | _ <;>
    rcases g with (_ | _) | _ | (_ | _) | _ | _ | _ | _ | _ <;>
    decide +kernel

theorem opening_cut {f g : Form} {x y : Bytes}
    (h : ascii f.opening ++ x = ascii g.opening ++ y) : f = g ∧ x = y := by
  have hfg : f = g := by
    rcases List.prefix_or_prefix_of_prefix (List.prefix_append _ x)
      (h ▸ List.prefix_append (ascii g.opening) y) with hprefix | hprefix
    · exact opening_injective hprefix
    · exact (opening_injective hprefix).symm
  subst hfg
  exact ⟨rfl, List.append_cancel_left h⟩

def Node.form : Node → Form
  | .const value => .const value
  | .not _ => .not
  | .junction op _ _ => .junction op
  | .cmp _ _ _ _ => .cmp
  | .typeis _ _ => .typeis
  | .len _ _ => .len
  | .integral _ => .integral
  | .truthy _ => .truthy

/-- What a key goes on with. -/
def closing : Node → Bytes
  | .const _ => []
  | .not a => key a ++ [41]
  | .junction op a b =>
    joined 32 (((flatten op (.junction op a b)).map key).mergeSort fun a b => !less b a).dedup ++ [41]
  | .cmp cmp path literal _ =>
    ascii cmp.text ++ 32 :: (pathText path ++ 32 :: (literal.text ++ [41]))
  | .typeis path luaType => pathText path ++ 32 :: (ascii luaType.text ++ [41])
  | .len path a => pathText path ++ 32 :: (key a ++ [41])
  | .integral path | .truthy path => pathText path ++ [41]

theorem key_junction (op : Junction) (a b : Node) :
    key (.junction op a b) = joinedKeys op ((flatten op (.junction op a b)).map key) := by
  rw [key]
  congr 1
  exact List.attach_map_val

theorem nodup_parts {op : Junction} {n : Node} (h : Canonical n) : (flatten op n).Nodup :=
  (pairwise_parts h).imp fun {a b} hab heq => by
    rw [heq, before_irrefl] at hab
    cases hab

/-- A canonical node is what the same parts make in any order. -/
theorem eq_of_perm {op : Junction} {n m : Node} (hn : Canonical n) (hm : Canonical m)
    (h : (flatten op n).Perm (flatten op m)) : n = m := by
  refine eq_of_flatten hn hm (List.Perm.eq_of_pairwise (fun p q _ _ hpq hqp => ?_) (pairwise_parts hn) (pairwise_parts hm) h)
  have hloop := before_trans hpq hqp
  rw [before_irrefl] at hloop
  cases hloop

/-- The keys of distinct parts, as they are sorted. -/
theorem dedup_keys {op : Junction} {n : Node} (h : Canonical n)
    (hinj : ∀ p ∈ flatten op n, ∀ q ∈ flatten op n, key p = key q → p = q) :
    (((flatten op n).map key).mergeSort fun a b => !less b a).dedup =
      ((flatten op n).mergeSort fun a b => !less (key b) (key a)).map key := by
  have hnodup : ((flatten op n).map key).Nodup := (nodup_parts h).map_on hinj
  rw [((List.mergeSort_perm _ _).nodup_iff.mpr hnodup).dedup]
  exact (List.map_mergeSort (f := key) fun a _ b _ => rfl).symm

/-- A key begins with its form and goes on with the rest. -/
theorem key_eq {n : Node} (h : Canonical n)
    (hinj : ∀ op, ∀ p ∈ flatten op n, ∀ q ∈ flatten op n, key p = key q → p = q) :
    key n = ascii n.form.opening ++ closing n := by
  cases n with
  | const value => cases value <;> simp [key, Node.form, Form.opening, closing]
  | junction op a b =>
    rw [key_junction, joinedKeys, closing]
    have hsorted := dedup_keys h (hinj op)
    have hlength : 2 ≤ (((flatten op (.junction op a b)).map key).mergeSort
        fun a b => !less b a).dedup.length := by
      rw [hsorted, List.length_map, List.length_mergeSort, flatten_junction h, List.length_cons]
      have := List.length_pos_iff.mpr (flatten_ne_nil op b)
      omega
    split
    · next one heq =>
      rw [heq] at hlength
      simp at hlength
    · cases op <;> simp [Node.form, Form.opening, Junction.text, ascii]
  | cmp cmp path literal c => simp [key, Node.form, Form.opening, closing, ascii]
  | _ => simp [key, Node.form, Form.opening, closing, ascii]

end Forms

section Injective

variable {ι : Type} {host : Host ι}

theorem comparison_text_cut {c d : Comparison} {x y : Bytes}
    (h : ascii c.text ++ 32 :: x = ascii d.text ++ 32 :: y) : c = d ∧ x = y := by
  have hplain : ∀ c : Comparison, (32 : UInt8) ∉ ascii c.text := by
    intro c
    cases c <;> decide
  obtain ⟨htext, rfl⟩ := run_cut (hplain c) (hplain d) h
  refine ⟨?_, rfl⟩
  revert htext
  cases c <;> cases d <;> decide

theorem luaType_text_cut {t u : LuaType} {x y : Bytes}
    (h : ascii t.text ++ 41 :: x = ascii u.text ++ 41 :: y) : t = u ∧ x = y := by
  have hplain : ∀ t : LuaType, (41 : UInt8) ∉ ascii t.text := by
    intro t
    cases t <;> decide
  obtain ⟨htext, rfl⟩ := run_cut (hplain t) (hplain u) h
  refine ⟨?_, rfl⟩
  revert htext
  cases t <;> cases u <;> decide

variable (host) in
/-- The refinements whose keys can be read back. -/
def Readable : Set Node := {n | Canonical n ∧ Reads host n}

theorem readable_part {op : Junction} {n p : Node} (h : n ∈ Readable host)
    (hp : p ∈ flatten op n) : p ∈ Readable host :=
  ⟨canonical_part h.1 hp, reads_part h.2 hp⟩

/-- A key begins with no space, and with no parenthesis that closes. -/
theorem key_head {n : Node} {c : UInt8} {x z : Bytes} (hkey : key n = ascii n.form.opening ++ closing n)
    (hc : c ∈ [32, 41]) : c :: x ≠ key n ++ z := by
  intro h
  have hopening : ∀ f : Form, ∃ d s, ascii f.opening = d :: s ∧ d ∉ [32, 41] := by
    intro f
    rcases f with (_ | _) | _ | (_ | _) | _ | _ | _ | _ | _ <;> exact ⟨_, _, rfl, by decide⟩
  obtain ⟨d, s, hd, hdc⟩ := hopening n.form
  rw [hkey, hd, List.cons_append, List.cons_append] at h
  exact hdc ((List.cons.inj h).1 ▸ hc)

variable (host) in
theorem key_delimits_below (N : ℕ) :
    Delimits {n | n ∈ Readable host ∧ sizeOf n < N} key fun _ => True := by
  induction N with
  | zero => exact fun a ha => absurd ha.2 (Nat.not_lt_zero _)
  | succ N ih =>
    -- the parts of a run are told by their keys
    have hinj : ∀ n ∈ {n | n ∈ Readable host ∧ sizeOf n < N + 1}, ∀ op, ∀ p ∈ flatten op n,
        ∀ q ∈ flatten op n, key p = key q → p = q := by
      intro n hn op p hp q hq hkey
      by_cases hjunction : ∃ c d, n = .junction op c d
      · obtain ⟨c, d, rfl⟩ := hjunction
        have hbelow : ∀ r ∈ flatten op (.junction op c d), r ∈ Readable host ∧ sizeOf r < N :=
          fun r hr => ⟨readable_part hn.1 hr,
            lt_of_lt_of_le (sizeOf_lt_of_mem_flatten hr) (Nat.lt_succ_iff.mp hn.2)⟩
        exact (ih p (hbelow p hp) q (hbelow q hq) [] [] trivial trivial (by rw [hkey])).1
      · rw [flatten_eq_self fun c d heq => hjunction ⟨c, d, heq⟩] at hp hq
        rw [List.mem_singleton.mp hp, List.mem_singleton.mp hq]
    have hkey : ∀ n ∈ {n | n ∈ Readable host ∧ sizeOf n < N + 1},
        key n = ascii n.form.opening ++ closing n := fun n hn => key_eq hn.1.1 (hinj n hn)
    intro a ha b hb x y _ _ h
    rw [hkey a ha, hkey b hb, List.append_assoc, List.append_assoc] at h
    obtain ⟨hform, h⟩ := opening_cut h
    cases a with
    | const v =>
      cases b with
      | const w =>
        cases hform
        exact ⟨rfl, h⟩
      | _ => cases hform
    | not a =>
      cases b with
      | not b =>
        simp only [closing, List.append_assoc, List.cons_append, List.nil_append] at h
        have hsize : ∀ n : Node, sizeOf n < sizeOf (Node.not n) := fun n => by simp
        obtain ⟨rfl, hrest⟩ := ih a ⟨ha.1, lt_of_lt_of_le (hsize a) (Nat.lt_succ_iff.mp ha.2)⟩ b
          ⟨hb.1, lt_of_lt_of_le (hsize b) (Nat.lt_succ_iff.mp hb.2)⟩ _ _ trivial trivial h
        exact ⟨rfl, (List.cons.inj hrest).2⟩
      | _ => cases hform
    | junction op a a' =>
      cases b with
      | junction op' b b' =>
        cases hform
        simp only [closing, List.append_assoc, List.cons_append, List.nil_append] at h
        rw [dedup_keys ha.1.1 (hinj _ ha op), dedup_keys hb.1.1 (hinj _ hb op)] at h
        have hbelow : ∀ n ∈ {n | n ∈ Readable host ∧ sizeOf n < N + 1}, ∀ c d, n = .junction op c d →
            ∀ p ∈ (flatten op n).mergeSort fun a b => !less (key b) (key a),
              p ∈ Readable host ∧ sizeOf p < N := by
          rintro n hn c d rfl p hp
          have hpart := (List.mergeSort_perm _ _).mem_iff.mp hp
          exact ⟨readable_part hn.1 hpart,
            lt_of_lt_of_le (sizeOf_lt_of_mem_flatten hpart) (Nat.lt_succ_iff.mp hn.2)⟩
        have hfollow : ∀ {z : Bytes}, ∀ p ∈ {n | n ∈ Readable host ∧ sizeOf n < N}, ∀ z',
            41 :: z ≠ key p ++ z' := fun p hp z' =>
          key_head (hkey p ⟨hp.1, Nat.lt_succ_of_lt hp.2⟩) (by decide)
        obtain ⟨hparts, hrest⟩ := joined_unique ih (fun _ => trivial) trivial trivial
          (by simp) (by simp) hfollow hfollow (hbelow _ ha _ _ rfl) (hbelow _ hb _ _ rfl) h
        have hperm : (flatten op (.junction op a a')).Perm (flatten op (.junction op b b')) :=
          (List.mergeSort_perm _ _).symm.trans
            (hparts ▸ List.mergeSort_perm (flatten op (.junction op b b')) _)
        exact ⟨eq_of_perm ha.1.1 hb.1.1 hperm, (List.cons.inj hrest).2⟩
      | _ => cases hform
    | cmp cmp path literal c =>
      cases b with
      | cmp cmp' path' literal' c' =>
        simp only [closing, List.append_assoc, List.cons_append, List.nil_append] at h
        obtain ⟨rfl, hpath⟩ := comparison_text_cut h
        obtain ⟨rfl, hliteral⟩ := path_cut (by decide) (by decide) hpath
        obtain ⟨htext, rfl⟩ :=
          written_cut literal.written literal'.written (List.cons.inj hliteral).2
        obtain ⟨text, written⟩ := literal
        obtain ⟨text', written'⟩ := literal'
        obtain rfl : text = text' := htext
        obtain rfl : c = c' := Option.some.inj (ha.1.2.1.symm.trans hb.1.2.1)
        exact ⟨rfl, rfl⟩
      | _ => cases hform
    | typeis path t =>
      cases b with
      | typeis path' t' =>
        simp only [closing, List.append_assoc, List.cons_append, List.nil_append] at h
        obtain ⟨rfl, htype⟩ := path_cut (by decide) (by decide) h
        obtain ⟨rfl, rfl⟩ := luaType_text_cut (List.cons.inj htype).2
        exact ⟨rfl, rfl⟩
      | _ => cases hform
    | len path a =>
      cases b with
      | len path' b =>
        simp only [closing, List.append_assoc, List.cons_append, List.nil_append] at h
        obtain ⟨rfl, hinner⟩ := path_cut (by decide) (by decide) h
        have hsize : ∀ (p : List Name) (n : Node), sizeOf n < sizeOf (Node.len p n) :=
          fun p n => by simp
        obtain ⟨rfl, hrest⟩ := ih a ⟨ha.1, lt_of_lt_of_le (hsize path a) (Nat.lt_succ_iff.mp ha.2)⟩ b
          ⟨hb.1, lt_of_lt_of_le (hsize path b) (Nat.lt_succ_iff.mp hb.2)⟩ _ _ trivial trivial
          (List.cons.inj hinner).2
        exact ⟨rfl, (List.cons.inj hrest).2⟩
      | _ => cases hform
    | integral path =>
      cases b with
      | integral path' =>
        simp only [closing, List.append_assoc, List.cons_append, List.nil_append] at h
        obtain ⟨rfl, hend⟩ := path_cut (by decide) (by decide) h
        exact ⟨rfl, (List.cons.inj hend).2⟩
      | _ => cases hform
    | truthy path =>
      cases b with
      | truthy path' =>
        simp only [closing, List.append_assoc, List.cons_append, List.nil_append] at h
        obtain ⟨rfl, hend⟩ := path_cut (by decide) (by decide) h
        exact ⟨rfl, (List.cons.inj hend).2⟩
      | _ => cases hform

/-- Readable refinements with one key are one. -/
theorem eq_of_key_eq {a b : Node} (ha : a ∈ Readable host) (hb : b ∈ Readable host)
    (h : key a = key b) : a = b :=
  (key_delimits_below host (sizeOf a + sizeOf b + 1) a ⟨ha, by omega⟩ b ⟨hb, by omega⟩ [] [] trivial
    trivial (by rw [h])).1

end Injective

end Nupp.predicate
