import Mathlib

/-!
# Listings by the page

A listing shows the entries of a list one by one, or one item for a whole run of entries that
belong to one group (`roll`). A page takes entries for at most `n` items and never ends inside
a run (`page`), so the page after it starts afresh.

* `roll_sorted`: in a list in order the items strictly ascend.
-/

namespace Paging

open List

/-! ## Prefixes in the order of lists -/

section Prefixes

variable {α : Type} [LinearOrder α]

theorem cons_le_cons_iff {x y : α} {a b : List α} : x :: a ≤ y :: b ↔ x < y ∨ x = y ∧ a ≤ b := by
  rw [← not_lt, cons_lt_cons_iff, ← not_lt]
  rcases lt_trichotomy x y with h | rfl | h
  · simp [h, h.ne', h.not_gt]
  · simp
  · simp [h, h.ne', h.not_gt]

theorem le_of_starts : ∀ {p k : List α}, p <+: k → p ≤ k := by
  intro p
  induction p with
  | nil => intro k _; exact not_lt.1 (not_lt_nil k)
  | cons x p ih =>
    intro k h
    obtain ⟨k, rfl, hk⟩ := cons_prefix_iff.1 h
    exact cons_le_cons_iff.2 (.inr ⟨rfl, ih hk⟩)

/-- What lies between a prefix and a list that has it has it too. -/
theorem prefix_of_between : ∀ {p s k : List α}, p <+: k → p ≤ s → s ≤ k → p <+: s := by
  intro p
  induction p with
  | nil => intro s k _ _ _; exact List.nil_prefix
  | cons x p ih =>
    intro s k hp hps hsk
    obtain ⟨k, rfl, hk⟩ := cons_prefix_iff.1 hp
    cases s with
    | nil => exact absurd hps (not_le.2 (nil_lt_cons x p))
    | cons y s =>
      rcases cons_le_cons_iff.1 hps with hlt | ⟨rfl, hps'⟩
      · rcases cons_le_cons_iff.1 hsk with hlt' | ⟨rfl, -⟩
        · exact absurd (hlt.trans hlt') (lt_irrefl x)
        · exact absurd hlt (lt_irrefl y)
      · rcases cons_le_cons_iff.1 hsk with hlt | ⟨-, hsk'⟩
        · exact absurd hlt (lt_irrefl x)
        · exact cons_prefix_cons.2 ⟨rfl, ih hk hps' hsk'⟩

/-- The least list after `a`. -/
theorem append_bot_le [OrderBot α] : ∀ {a k : List α}, a ++ [⊥] ≤ k ↔ a < k := by
  intro a
  induction a with
  | nil =>
    intro k
    cases k with
    | nil => exact iff_of_false (not_le.2 (nil_lt_cons _ _)) (lt_irrefl _)
    | cons y k =>
      refine iff_of_true (cons_le_cons_iff.2 ?_) (nil_lt_cons y k)
      rcases eq_or_lt_of_le (bot_le : ⊥ ≤ y) with rfl | h
      · exact .inr ⟨rfl, not_lt.1 (not_lt_nil k)⟩
      · exact .inl h
  | cons x a ih =>
    intro k
    cases k with
    | nil => exact iff_of_false (not_le.2 (nil_lt_cons _ _)) (not_lt_nil _)
    | cons y k => rw [cons_append, cons_le_cons_iff, cons_lt_cons_iff, ih]

end Prefixes

/-! ## Items and pages -/

variable {α γ : Type} [DecidableEq γ]

/-- An entry by itself, or a group of them. -/
inductive Item (α γ : Type) where
  | single (a : α)
  | group (g : γ)
deriving DecidableEq

/-- The entry of an item. -/
@[simp] def Item.entry : Item α γ → Option α
  | single a => some a
  | group _ => none

/-- The group of an item. -/
@[simp] def Item.rolled : Item α γ → Option γ
  | single _ => none
  | group g => some g

variable (r : α → Option γ)

/-- The items of a list that is read after an entry of the group `g`. -/
def roll : Option γ → List α → List (Item α γ)
  | _, [] => []
  | g, a :: l =>
    match r a with
    | none => .single a :: roll none l
    | some g' => if g = some g' then roll g l else .group g' :: roll (some g') l

/-- The entries a page of at most `n` items takes, and those it leaves. -/
def page : ℕ → Option γ → List α → List α × List α
  | _, _, [] => ([], [])
  | n, g, a :: l =>
    match r a with
    | none =>
      match n with
      | 0 => ([], a :: l)
      | n + 1 => (a :: (page n none l).1, (page n none l).2)
    | some g' =>
      if g = some g' then (a :: (page n g l).1, (page n g l).2)
      else match n with
        | 0 => ([], a :: l)
        | n + 1 => (a :: (page n (some g') l).1, (page n (some g') l).2)

variable {r}

theorem page_append : ∀ (l : List α) (n : ℕ) (g : Option γ), (page r n g l).1 ++ (page r n g l).2 = l := by
  intro l
  induction l with
  | nil => intro n g; rfl
  | cons a l ih =>
    intro n g
    unfold page
    split
    · split
      · rfl
      · rw [cons_append, ih]
    split
    · rw [cons_append, ih]
    · split
      · rfl
      · rw [cons_append, ih]

omit [DecidableEq γ] in
theorem ne_some_of_other {g : Option γ} {g' : γ} {a : α} (hr : r a = some g') (h : g = none ∨ r a ≠ g) : g ≠ some g' := by
  rcases h with rfl | h
  · exact nofun
  · exact fun hg => h (hr.trans hg.symm)

/-- An entry of another group starts afresh. -/
theorem roll_of_ne {g : Option γ} {a : α} {l : List α} (h : g = none ∨ r a ≠ g) :
    roll r g (a :: l) = roll r none (a :: l) := by
  unfold roll
  cases hr : r a with
  | none => rfl
  | some g' =>
    have hne := ne_some_of_other hr h
    simp only [hne, if_false, reduceCtorEq]

/-- A page takes an entry of its last group. -/
theorem page_same {g : Option γ} {a : α} (hg : g ≠ none) (h : r a = g) (l : List α) (n : ℕ) :
    page r n g (a :: l) = (a :: (page r n g l).1, (page r n g l).2) := by
  obtain ⟨g, rfl⟩ := Option.ne_none_iff_exists'.1 hg
  rw [page.eq_def r n (some g) (a :: l)]
  simp only [h, if_true]

/-- A page without room leaves an entry that is not of its last group. -/
theorem page_zero {g : Option γ} {a : α} {l : List α} (h : g = none ∨ r a ≠ g) : page r 0 g (a :: l) = ([], a :: l) := by
  unfold page
  cases hr : r a with
  | none => rfl
  | some g' =>
    have hne := ne_some_of_other hr h
    simp only [hne, if_false]

/-- A page with room takes it. -/
theorem page_succ {g : Option γ} {a : α} {l : List α} (h : g = none ∨ r a ≠ g) (n : ℕ) :
    page r (n + 1) g (a :: l) = (a :: (page r n (r a) l).1, (page r n (r a) l).2) := by
  rw [page]
  cases hr : r a with
  | none => rfl
  | some g' =>
    have hne := ne_some_of_other hr h
    simp only [hne, if_false]

/-- **The items of a page are the first items of the listing.** -/
theorem roll_page : ∀ (l : List α) (n : ℕ) (g : Option γ),
    roll r g l = roll r g (page r n g l).1 ++ roll r none (page r n g l).2 := by
  intro l
  induction l with
  | nil => intro n g; rfl
  | cons a l ih =>
    intro n g
    unfold page
    cases hr : r a with
    | none =>
      cases n with
      | zero => exact roll_of_ne (Or.elim (Option.eq_none_or_eq_some g) .inl fun ⟨_, h⟩ => .inr (by rw [hr, h]; exact nofun))
      | succ n => simp only [roll, hr, cons_append, ← ih]
    | some g' =>
      by_cases hg : g = some g'
      · simp only [roll, hr, hg, if_true, ← ih]
      cases n with
      | zero =>
        simp only [hg, if_false]
        exact roll_of_ne (.inr (by rw [hr]; exact fun h => hg h.symm))
      | succ n => simp only [roll, hr, hg, if_false, cons_append, ← ih]

section Alone

variable (hr : ∀ a, r a = none)
include hr

/-- Without groups every entry is shown by itself. -/
theorem roll_alone : ∀ l : List α, roll r none l = l.map .single := by
  intro l
  induction l with
  | nil => rfl
  | cons a l ih => simp only [roll, hr, ih, map_cons]

/-- Without groups a page is a piece of the list. -/
theorem page_alone : ∀ (l : List α) (n : ℕ), page r n none l = (l.take n, l.drop n) := by
  intro l
  induction l with
  | nil => intro n; simp [page]
  | cons a l ih =>
    intro n
    cases n with
    | zero => simp only [page, hr, take_zero, drop_zero]
    | succ n => simp only [page, hr, ih, take_succ_cons, drop_succ_cons]

end Alone

/-- A page has at most its size, and exactly that if it leaves something. -/
theorem length_roll_page : ∀ (l : List α) (n : ℕ) (g : Option γ), (roll r g (page r n g l).1).length ≤ n ∧
      ((page r n g l).2 ≠ [] → (roll r g (page r n g l).1).length = n) := by
  intro l
  induction l with
  | nil => intro n g; exact ⟨Nat.zero_le _, fun h => absurd rfl h⟩
  | cons a l ih =>
    intro n g
    unfold page
    cases hr : r a with
    | none =>
      cases n with
      | zero => exact ⟨Nat.le_refl 0, fun _ => rfl⟩
      | succ n =>
        obtain ⟨hle, heq⟩ := ih n none
        simp only [roll, hr, length_cons]
        exact ⟨by omega, fun h => by rw [heq h]⟩
    | some g' =>
      by_cases hg : g = some g'
      · simp only [roll, hr, hg, if_true]
        exact ih n (some g')
      cases n with
      | zero =>
        simp only [hg, if_false]
        exact ⟨Nat.le_refl 0, fun _ => rfl⟩
      | succ n =>
        obtain ⟨hle, heq⟩ := ih n (some g')
        simp only [roll, hr, hg, if_false, length_cons]
        exact ⟨by omega, fun h => by rw [heq h]⟩

/-- A page takes something, if there is anything. -/
theorem page_ne_nil {n : ℕ} (hn : 1 ≤ n) {l : List α} (hl : l ≠ []) (g : Option γ) : (page r n g l).1 ≠ [] := by
  obtain ⟨a, l, rfl⟩ := exists_cons_of_ne_nil hl
  obtain ⟨n, rfl⟩ : ∃ m, n = m + 1 := ⟨n - 1, by omega⟩
  unfold page
  cases r a with
  | none => exact cons_ne_nil _ _
  | some g' =>
    by_cases hg : g = some g'
    · simp only [hg, if_true]; exact cons_ne_nil _ _
    · simp only [hg, if_false]; exact cons_ne_nil _ _

theorem roll_ne_nil {l : List α} (hl : l ≠ []) : roll r none l ≠ [] := by
  obtain ⟨a, l, rfl⟩ := exists_cons_of_ne_nil hl
  unfold roll
  cases r a with
  | none => exact cons_ne_nil _ _
  | some g' => simp

/-! ## What is shown -/

/-- The entries that are shown by themselves are those without a group. -/
theorem filterMap_entry_roll : ∀ (l : List α) (g : Option γ),
    (roll r g l).filterMap Item.entry = l.filter fun a => (r a).isNone := by
  intro l
  induction l with
  | nil => intro g; rfl
  | cons a l ih =>
    intro g
    unfold roll
    cases hr : r a with
    | none => simp [hr, ih]
    | some g' =>
      by_cases hg : g = some g'
      · simp [hr, hg, ih]
      · simp [hr, hg, ih, filterMap_cons]

/-- The groups that are shown, with the one that was read last, are those of the entries with it. -/
theorem mem_groups (x : γ) : ∀ (l : List α) (g : Option γ),
    x ∈ (roll r g l).filterMap Item.rolled ∨ g = some x ↔ (∃ a ∈ l, r a = some x) ∨ g = some x := by
  intro l
  induction l with
  | nil => intro g; simp [roll]
  | cons a l ih =>
    intro g
    unfold roll
    cases hr : r a with
    | none =>
      have h := ih none
      simp only [reduceCtorEq, or_false] at h
      simp [hr, h, filterMap_cons]
    | some g' =>
      have h := ih (some g')
      have hcons : (∃ b ∈ a :: l, r b = some x) ↔ g' = x ∨ ∃ b ∈ l, r b = some x := by simp [hr]
      rw [Option.some.injEq] at h
      rw [hcons]
      by_cases hg : g = some g'
      · simp only [hg, if_true, Option.some.injEq]
        rw [h]
        grind
      · simp only [hg, if_false, filterMap_cons, Item.rolled, mem_cons, @eq_comm _ x g']
        grind

/-- The place of an item in the order of the groups, if `key` gives that of an entry. -/
def Item.label (key : α → γ) : Item α γ → γ
  | single a => key a
  | group g => g

omit [DecidableEq γ] in
theorem groups_sublist (key : α → γ) (items : List (Item α γ)) :
    (items.filterMap Item.rolled).Sublist (items.map (Item.label key)) := by
  induction items with
  | nil => exact List.Sublist.slnil
  | cons item items ih =>
    cases item with
    | single a => exact ih.cons _
    | group g => exact ih.cons_cons g

/-- Two entries in order: ascending by their groups or keys, or of one group. -/
def Ascending [LT γ] (r : α → Option γ) (key : α → γ) (a b : α) : Prop :=
  (r a).getD (key a) < (r b).getD (key b) ∨ r a = r b ∧ r a ≠ none

/-- Every item stands for an entry. -/
theorem mem_label_roll {key : α → γ} {y : γ} : ∀ {l : List α} {g : Option γ},
    y ∈ (roll r g l).map (Item.label key) → ∃ a ∈ l, y = (r a).getD (key a) := by
  intro l
  induction l with
  | nil => intro g h; exact absurd h not_mem_nil
  | cons a l ih =>
    intro g h
    have hmore : ∀ {g}, y ∈ (roll r g l).map (Item.label key) → ∃ b ∈ a :: l, y = (r b).getD (key b) := by
      intro g h
      obtain ⟨b, hb, hy⟩ := ih h
      exact ⟨b, mem_cons_of_mem a hb, hy⟩
    unfold roll at h
    cases hr : r a with
    | none =>
      rw [hr] at h
      rcases mem_cons.1 h with rfl | h
      · exact ⟨a, mem_cons_self, by rw [hr]; rfl⟩
      · exact hmore h
    | some g' =>
      rw [hr] at h
      dsimp only at h
      split at h
      · exact hmore h
      · rcases mem_cons.1 h with rfl | h
        · exact ⟨a, mem_cons_self, by rw [hr]; rfl⟩
        · exact hmore h

/-- **In a list in order the items strictly ascend**: every group is shown once. -/
theorem roll_sorted [Preorder γ] (key : α → γ) : ∀ (l : List α) (g : Option γ), l.Pairwise (Ascending r key) →
    (∀ x, g = some x → ∀ a ∈ l, x < (r a).getD (key a) ∨ r a = some x) →
      ((roll r g l).map (Item.label key)).Pairwise (· < ·) ∧
        ∀ x, g = some x → ∀ y ∈ (roll r g l).map (Item.label key), x < y := by
  intro l
  induction l with
  | nil => intro g _ _; exact ⟨List.Pairwise.nil, fun _ _ y hy => absurd hy not_mem_nil⟩
  | cons a l ih =>
    intro g hl hg
    obtain ⟨hfirst, hrest⟩ := pairwise_cons.1 hl
    unfold roll
    cases hr : r a with
    | none =>
      obtain ⟨hsorted, -⟩ := ih none hrest fun x hx => by cases hx
      -- everything behind an entry without a group comes after its key
      have hafter : ∀ y ∈ (roll r none l).map (Item.label key), key a < y := by
        intro y hy
        obtain ⟨b, hb, rfl⟩ := mem_label_roll hy
        rcases hfirst b hb with h | h
        · rwa [hr, Option.getD_none] at h
        · exact absurd hr h.2
      refine ⟨pairwise_cons.2 ⟨hafter, hsorted⟩, fun x hx => forall_mem_cons.2 ?_⟩
      have hxa : x < key a := by
        rcases hg x hx a mem_cons_self with h | h
        · rwa [hr, Option.getD_none] at h
        · rw [hr] at h; cases h
      exact ⟨hxa, fun y hy => hxa.trans (hafter y hy)⟩
    | some g' =>
      obtain ⟨hsorted, hlt⟩ := ih (some g') hrest fun x hx b hb => by
        cases hx
        rcases hfirst b hb with h | h
        · rw [hr, Option.getD_some] at h; exact .inl h
        · exact .inr (h.1 ▸ hr)
      by_cases hgg : g = some g'
      · subst hgg
        simp only [if_true]
        exact ⟨hsorted, hlt⟩
      simp only [hgg, if_false, map_cons, pairwise_cons, forall_mem_cons]
      refine ⟨⟨hlt g' rfl, hsorted⟩, fun x hx => ?_⟩
      have hxg : x < g' := by
        rcases hg x hx a mem_cons_self with h | h
        · rwa [hr, Option.getD_some] at h
        · exact absurd (hx.trans (h.symm.trans hr)) hgg
      exact ⟨hxg, fun y hy => hxg.trans (hlt g' rfl y hy)⟩

end Paging
