import Mathlib

/-!
# Finite maps in key order

`OrdMap K V` is a finite map kept as the list of its entries in ascending key order,
so that it has one representation per map, can be walked in order,
and every total over its entries is a list sum.

* `sum_insert`, `sum_erase`: what an update does to a total over the entries.
-/

/-- A finite map, as its entries in strictly ascending key order. -/
structure OrdMap (K V : Type) [LinearOrder K] where
  entries : List (K × V)
  sorted : entries.Pairwise fun a b => a.1 < b.1
deriving DecidableEq

namespace OrdMap

open List

variable {K V : Type} [LinearOrder K]
variable {m : OrdMap K V} {k : K} {e : K × V} {rest : List (K × V)} {cursor : Option K}

/-- The value under `k` in a list of entries. -/
def lookup (k : K) : List (K × V) → Option V
  | [] => none
  | (k', v) :: l => if k' = k then some v else lookup k l

/-- Put `v` under `k`, in order. -/
def insertEntry (k : K) (v : V) : List (K × V) → List (K × V)
  | [] => [(k, v)]
  | (k', v') :: l =>
    if k < k' then (k, v) :: (k', v') :: l
    else if k' = k then (k, v) :: l
    else (k', v') :: insertEntry k v l

theorem mem_insertEntry {v : V} : ∀ {l : List (K × V)}, e ∈ insertEntry k v l → e = (k, v) ∨ e ∈ l := by
  intro l
  induction l with
  | nil => intro h; left; simpa [insertEntry] using h
  | cons x l ih =>
    obtain ⟨k', v'⟩ := x
    intro h
    simp only [insertEntry] at h
    split at h
    · rcases mem_cons.1 h with h | h
      · exact .inl h
      · exact .inr h
    split at h
    · rcases mem_cons.1 h with h | h
      · exact .inl h
      · exact .inr (mem_cons_of_mem _ h)
    rcases mem_cons.1 h with h | h
    · exact .inr (h ▸ mem_cons_self)
    · rcases ih h with h | h
      · exact .inl h
      · exact .inr (mem_cons_of_mem _ h)

theorem insertEntry_sorted (k : K) (v : V) : ∀ l : List (K × V),
    l.Pairwise (fun a b => a.1 < b.1) → (insertEntry k v l).Pairwise fun a b => a.1 < b.1 := by
  intro l
  induction l with
  | nil => intro _; simp [insertEntry]
  | cons x l ih =>
    obtain ⟨k', v'⟩ := x
    intro h
    obtain ⟨hx, hl⟩ := pairwise_cons.1 h
    simp only [insertEntry]
    split
    · rename_i hk
      refine pairwise_cons.2 ⟨?_, h⟩
      intro b hb
      rcases mem_cons.1 hb with rfl | hb
      · exact hk
      · exact lt_trans hk (hx b hb)
    split
    · rename_i hkk
      subst hkk
      exact pairwise_cons.2 ⟨hx, hl⟩
    rename_i hk hkk
    refine pairwise_cons.2 ⟨?_, ih hl⟩
    intro b hb
    rcases mem_insertEntry hb with rfl | hb
    · exact lt_of_le_of_ne (not_lt.1 hk) hkk
    · exact hx b hb

/-- The map with no entries. -/
def empty : OrdMap K V := ⟨[], List.Pairwise.nil⟩

instance : EmptyCollection (OrdMap K V) := ⟨empty⟩

instance : Inhabited (OrdMap K V) := ⟨empty⟩

/-- The value under `k`. -/
def get (m : OrdMap K V) (k : K) : Option V := lookup k m.entries

/-- Put `v` under `k`, replacing what was there. -/
def insert (m : OrdMap K V) (k : K) (v : V) : OrdMap K V :=
  ⟨insertEntry k v m.entries, insertEntry_sorted k v _ m.sorted⟩

/-- Remove what is under `k`. -/
def erase (m : OrdMap K V) (k : K) : OrdMap K V :=
  ⟨m.entries.filter fun e => e.1 ≠ k, m.sorted.filter _⟩

/-- Every value replaced. -/
def map {W : Type} (f : V → W) (m : OrdMap K V) : OrdMap K W :=
  ⟨m.entries.map fun e => (e.1, f e.2), pairwise_map.2 m.sorted⟩

/-- The keys in ascending order. -/
def keys (m : OrdMap K V) : List K := m.entries.map Prod.fst

/-- The first entry strictly after a cursor; the first of all without one. -/
def nextAfter (m : OrdMap K V) : Option K → Option (K × V)
  | none => m.entries.head?
  | some k => m.entries.find? fun e => k < e.1

/-- The last entry strictly before a cursor; the last of all without one. -/
def prevBefore (m : OrdMap K V) : Option K → Option (K × V)
  | none => m.entries.getLast?
  | some k => (m.entries.filter fun e => e.1 < k).getLast?

/-- The entries strictly after a cursor. -/
def behind (m : OrdMap K V) : Option K → List (K × V)
  | none => m.entries
  | some k => m.entries.filter fun e => k < e.1

/-- The entries strictly before a cursor, the last one first. -/
def before (m : OrdMap K V) : Option K → List (K × V)
  | none => m.entries.reverse
  | some k => m.entries.reverse.filter fun e => e.1 < k

/-- The total of `f` over the entries. -/
def sum {M : Type} [AddCommMonoid M] (f : K → V → M) (m : OrdMap K V) : M :=
  (m.entries.map fun e => f e.1 e.2).sum

/-! ## Reading -/

theorem lookup_eq_none_of_lt : ∀ {l : List (K × V)}, (∀ e ∈ l, k < e.1) → lookup k l = none := by
  intro l
  induction l with
  | nil => intro _; rfl
  | cons x l ih =>
    intro h
    have hx := h x mem_cons_self
    rw [show lookup k (x :: l) = if x.1 = k then some x.2 else lookup k l from rfl, if_neg (ne_of_gt hx)]
    exact ih fun e he => h e (mem_cons_of_mem _ he)

theorem lookup_insertEntry (k : K) (v : V) (j : K) : ∀ l : List (K × V), l.Pairwise (fun a b => a.1 < b.1) →
      lookup j (insertEntry k v l) = if j = k then some v else lookup j l := by
  intro l
  induction l with
  | nil => intro _; simp [insertEntry, lookup, eq_comm]
  | cons x l ih =>
    obtain ⟨k', v'⟩ := x
    intro h
    obtain ⟨hx, hl⟩ := pairwise_cons.1 h
    simp only [insertEntry]
    split
    · by_cases hj : j = k
      · subst hj; simp [lookup]
      · rw [if_neg hj]; simp only [lookup, if_neg (Ne.symm hj)]
    split
    · rename_i hkk
      subst hkk
      by_cases hj : j = k'
      · subst hj; simp [lookup]
      · simp [lookup, hj, Ne.symm hj]
    · rename_i hkk
      simp only [lookup, ih hl]
      by_cases hj : j = k
      · subst hj; simp [hkk]
      · simp [hj]

theorem get_insert (m : OrdMap K V) (k j : K) (v : V) : (m.insert k v).get j = if j = k then some v else m.get j :=
  lookup_insertEntry k v j _ m.sorted

@[simp] theorem get_insert_self (m : OrdMap K V) (k : K) (v : V) : (m.insert k v).get k = some v := by
  rw [get_insert, if_pos rfl]

theorem get_insert_of_ne (m : OrdMap K V) {k j : K} (v : V) (h : j ≠ k) : (m.insert k v).get j = m.get j := by
  rw [get_insert, if_neg h]

theorem get_erase (m : OrdMap K V) (k j : K) : (m.erase k).get j = if j = k then none else m.get j := by
  obtain ⟨l, hl⟩ := m
  simp only [get, erase]
  clear hl
  induction l with
  | nil => simp [lookup]
  | cons x l ih =>
    obtain ⟨k', v'⟩ := x
    rw [filter_cons]
    by_cases hk : k' = k
    · subst hk
      by_cases hj : j = k'
      · subst hj; simpa using ih
      · simpa [lookup, hj, Ne.symm hj] using ih
    · simp only [ne_eq, hk, not_false_eq_true, decide_true, if_true, lookup]
      by_cases hj : k' = j
      · subst hj; simp [hk]
      · simpa [hj] using ih

@[simp] theorem get_erase_self (m : OrdMap K V) (k : K) : (m.erase k).get k = none := by
  rw [get_erase, if_pos rfl]

theorem get_erase_of_ne (m : OrdMap K V) {k j : K} (h : j ≠ k) : (m.erase k).get j = m.get j := by
  rw [get_erase, if_neg h]

theorem get_foldl_erase : ∀ (ks : List K) (m : OrdMap K V) (j : K),
    (ks.foldl erase m).get j = if j ∈ ks then none else m.get j := by
  intro ks
  induction ks with
  | nil => intro m j; simp
  | cons k ks ih =>
    intro m j
    rw [foldl_cons, ih, get_erase]
    by_cases hj : j = k
    · simp [hj]
    · simp [hj]

@[simp] theorem get_empty (k : K) : (∅ : OrdMap K V).get k = none := rfl

theorem mem_entries {v : V} : (k, v) ∈ m.entries ↔ m.get k = some v := by
  obtain ⟨l, hl⟩ := m
  simp only [get]
  induction l with
  | nil => simp [lookup]
  | cons x l ih =>
    obtain ⟨k', v'⟩ := x
    obtain ⟨hx, hl'⟩ := pairwise_cons.1 hl
    simp only [mem_cons, Prod.mk.injEq, lookup]
    by_cases hk : k' = k
    · subst hk
      have hn : lookup k' l = none := lookup_eq_none_of_lt hx
      have := ih hl'
      rw [hn] at this
      simp only [reduceCtorEq, iff_false] at this
      simp [this, eq_comm]
    · simp [hk, Ne.symm hk, ih hl']

theorem entries_nodup (m : OrdMap K V) : m.entries.Nodup := m.sorted.imp fun h he => (he ▸ h).false

theorem mem_keys : k ∈ m.keys ↔ (m.get k).isSome := by
  rw [keys, mem_map, Option.isSome_iff_exists]
  constructor
  · rintro ⟨⟨_, v⟩, he, rfl⟩
    exact ⟨v, mem_entries.1 he⟩
  · rintro ⟨v, hget⟩
    exact ⟨(k, v), mem_entries.2 hget, rfl⟩

theorem keys_nodup (m : OrdMap K V) : m.keys.Nodup := by
  unfold keys
  exact pairwise_map.2 (m.sorted.imp fun h => ne_of_lt h)

/-! ## Walking -/

theorem nextAfter_eq (m : OrdMap K V) (cursor : Option K) : m.nextAfter cursor = (m.behind cursor).head? := by
  cases cursor with
  | none => rfl
  | some k => exact List.head?_filter.symm

theorem prevBefore_eq (m : OrdMap K V) (cursor : Option K) : m.prevBefore cursor = (m.before cursor).head? := by
  cases cursor with
  | none => exact List.head?_reverse.symm
  | some k => rw [before, filter_reverse, head?_reverse]; rfl

omit [LinearOrder K] in
/-- In a list in the order `r`, what stands after the entry at the front. -/
theorem filter_front {r : K → K → Prop} [DecidableRel r] [Std.Irrefl r] {l : List (K × V)}
    (hl : l.Pairwise fun a b => r a.1 b.1) {p : K → Bool} (hp : ∀ k k', r k k' → p k = true → p k' = true)
    (h : (l.filter fun x => p x.1) = e :: rest) : (l.filter fun x => r e.1 x.1) = rest := by
  have hsorted : (e :: rest).Pairwise fun a b => r a.1 b.1 := h ▸ hl.filter _
  obtain ⟨hfirst, -⟩ := pairwise_cons.1 hsorted
  have he : p e.1 = true := (mem_filter.1 (h ▸ mem_cons_self : e ∈ l.filter fun x => p x.1)).2
  have hsplit : (l.filter fun x => r e.1 x.1) = (e :: rest).filter fun x => r e.1 x.1 := by
    rw [← h, filter_filter]
    refine filter_congr fun x _ => ?_
    by_cases hx : r e.1 x.1
    · simp [hx, hp _ _ hx he]
    · simp [hx]
  have hirrefl : ¬ r e.1 e.1 := Std.Irrefl.irrefl e.1
  rw [hsplit, filter_cons_of_neg (by simp [hirrefl]), filter_eq_self]
  intro x hx
  exact decide_eq_true (hfirst x hx)

/-- A walk goes on behind the entry it was given. -/
theorem behind_next (h : m.behind cursor = e :: rest) : m.behind (some e.1) = rest := by
  cases cursor with
  | none =>
    refine filter_front (r := (· < ·)) (p := fun _ => true) m.sorted (fun _ _ _ _ => rfl) ?_
    rw [filter_true]
    exact h
  | some k =>
    refine filter_front (r := (· < ·)) (p := fun x => k < x) m.sorted (fun x y hxy hx => ?_) h
    exact decide_eq_true ((of_decide_eq_true hx).trans hxy)

/-- A walk backward goes on before the entry it was given. -/
theorem before_next (h : m.before cursor = e :: rest) : m.before (some e.1) = rest := by
  have hsorted : m.entries.reverse.Pairwise fun a b => a.1 > b.1 := pairwise_reverse.2 m.sorted
  cases cursor with
  | none =>
    refine filter_front (r := (· > ·)) (p := fun _ => true) hsorted (fun _ _ _ _ => rfl) ?_
    rw [filter_true]
    exact h
  | some k =>
    refine filter_front (r := (· > ·)) (p := fun x => x < k) hsorted (fun x y hxy hx => ?_) h
    exact decide_eq_true (lt_trans hxy (of_decide_eq_true hx))

/-- Induction along a walk that has a turn for each entry, and one more. -/
theorem walk_induction {P : ℕ → Option K → List (K × V) → Prop}
    (done : ∀ fuel cursor, m.nextAfter cursor = none → P (fuel + 1) cursor [])
    (more : ∀ fuel cursor e rest, m.nextAfter cursor = some e → P fuel (some e.1) rest → P (fuel + 1) cursor (e :: rest)) :
    ∀ (l : List (K × V)) {fuel : ℕ} {cursor : Option K}, m.behind cursor = l → l.length < fuel → P fuel cursor l := by
  intro l
  induction l with
  | nil =>
    intro fuel cursor hl hfuel
    obtain ⟨fuel, rfl⟩ : ∃ n, fuel = n + 1 := ⟨fuel - 1, by omega⟩
    exact done fuel cursor (by rw [nextAfter_eq, hl]; rfl)
  | cons e l ih =>
    intro fuel cursor hl hfuel
    obtain ⟨fuel, rfl⟩ : ∃ n, fuel = n + 1 := ⟨fuel - 1, by omega⟩
    exact more fuel cursor e l (by rw [nextAfter_eq, hl]; rfl) (ih (behind_next hl) (by simpa using hfuel))

theorem length_behind_le (m : OrdMap K V) (cursor : Option K) : (m.behind cursor).length ≤ m.entries.length := by
  cases cursor with
  | none => exact le_refl _
  | some k => exact length_filter_le _ _

theorem mem_behind : e ∈ m.behind (some k) ↔ e ∈ m.entries ∧ k < e.1 := by
  simp [behind]

/-- A map is its values. -/
theorem eq_of_get {m m' : OrdMap K V} (h : ∀ k, m.get k = m'.get k) : m = m' := by
  have hmem : ∀ e, e ∈ m.entries ↔ e ∈ m'.entries := by
    rintro ⟨k, v⟩
    rw [mem_entries, mem_entries, h]
  have hperm := (perm_ext_iff_of_nodup m.entries_nodup m'.entries_nodup).2 hmem
  have hl : m.entries = m'.entries :=
    hperm.eq_of_pairwise (fun a b _ _ hab hba => ((hab.trans hba).false).elim) m.sorted m'.sorted
  obtain ⟨l, hm⟩ := m
  obtain ⟨l', hm'⟩ := m'
  obtain rfl : l = l' := hl
  rfl

theorem erase_of_get_eq_none (h : m.get k = none) : m.erase k = m := by
  obtain ⟨l, hl⟩ := m
  simp only [erase, mk.injEq]
  rw [filter_eq_self]
  rintro ⟨k', v⟩ he
  have hv := mem_entries (m := ⟨l, hl⟩).1 he
  simp only [ne_eq, decide_not, Bool.not_eq_true', decide_eq_false_iff_not]
  rintro rfl
  cases h.symm.trans hv

/-! ## Totals over the entries -/

section Sum

variable {M : Type} [AddCommMonoid M] (f : K → V → M)

/-- The share of key `k` in a total. -/
def share (m : OrdMap K V) (k : K) : M := (m.get k).elim 0 (f k)

@[simp] theorem sum_empty : (∅ : OrdMap K V).sum f = 0 := rfl

theorem sum_insert (m : OrdMap K V) (k : K) (v : V) : (m.insert k v).sum f + m.share f k = m.sum f + f k v := by
  obtain ⟨l, hl⟩ := m
  simp only [sum, insert, share, get]
  induction l with
  | nil => simp [insertEntry, lookup]
  | cons x l ih =>
    obtain ⟨k', v'⟩ := x
    obtain ⟨hx, hl'⟩ := pairwise_cons.1 hl
    simp only [insertEntry]
    split
    · rename_i hk
      have hn : lookup k ((k', v') :: l) = none := by
        refine lookup_eq_none_of_lt fun e he => ?_
        rcases mem_cons.1 he with rfl | he
        · exact hk
        · exact lt_trans hk (hx e he)
      rw [hn]
      simp only [map_cons, sum_cons, Option.elim_none, add_zero]
      abel
    · split
      · rename_i hkk
        subst hkk
        simp only [map_cons, sum_cons, lookup, if_true, Option.elim_some]
        abel
      · rename_i hkk
        simp only [map_cons, sum_cons, lookup, if_neg hkk]
        rw [add_assoc, ih hl', add_assoc]

theorem sum_erase (m : OrdMap K V) (k : K) : (m.erase k).sum f + m.share f k = m.sum f := by
  obtain ⟨l, hl⟩ := m
  simp only [sum, erase, share, get]
  induction l with
  | nil => simp [lookup]
  | cons x l ih =>
    obtain ⟨k', v'⟩ := x
    obtain ⟨hx, hl'⟩ := pairwise_cons.1 hl
    have ih := ih hl'
    rw [filter_cons]
    by_cases hk : k' = k
    · subst hk
      have hn : lookup k' l = none := lookup_eq_none_of_lt hx
      rw [hn] at ih
      simp only [Option.elim_none, add_zero] at ih
      simp only [ne_eq, not_true_eq_false, decide_false, Bool.false_eq_true, if_false, lookup, if_true,
        Option.elim_some, map_cons, sum_cons]
      rw [show (l.filter fun e => decide (¬ e.1 = k')) = l.filter fun e => decide (e.1 ≠ k') from rfl, ih, add_comm]
    · simp only [ne_eq, hk, not_false_eq_true, decide_true, if_true, map_cons, sum_cons, lookup, if_false]
      rw [add_assoc]
      exact congrArg _ ih

theorem sum_insert_of_get_eq_none {m : OrdMap K V} {k : K} (h : m.get k = none) (v : V) :
    (m.insert k v).sum f = m.sum f + f k v := by
  have hsum := sum_insert f m k v
  unfold share at hsum
  rwa [h, Option.elim_none, add_zero] at hsum

theorem sum_of_get {m : OrdMap K V} {k : K} {v : V} (h : m.get k = some v) : m.sum f = f k v + (m.erase k).sum f := by
  rw [← sum_erase f m k, share, h, Option.elim_some, add_comm]

/-- A total seen through a map that only key `k` reaches. -/
theorem map_sum_eq_share {N : Type} [AddCommMonoid N] (φ : M →+ N) {m : OrdMap K V} {k : K}
    (h : ∀ k' v, k' ≠ k → φ (f k' v) = 0) : φ (m.sum f) = φ (m.share f k) := by
  have hrest : φ ((m.erase k).sum f) = 0 := by
    unfold sum
    rw [map_list_sum, map_map]
    refine sum_eq_zero ?_
    intro x hx
    obtain ⟨e, he, rfl⟩ := mem_map.1 hx
    refine h e.1 e.2 ?_
    simp only [erase, mem_filter, decide_eq_true_eq] at he
    exact he.2
  rw [← sum_erase f m k, map_add, hrest, zero_add]

end Sum

end OrdMap
