import QssStorage.Conc.Prog

/-!
# Locks in ascending order

A program `Ascends` if it takes every lock above those it holds and gives back only what it holds.
In a pool of such programs no two threads hold one lock.

* `Orderly.no_cycle`: **threads never wait for each other in a cycle**: the lock that is waited for
  grows along the waits.
-/

namespace Conc

open List

namespace Prog

variable {σ ε ι α β : Type}
variable {r : Prog σ ε ι α}

/-- The program takes no lock and gives none back, and each of its steps has an answer. -/
def LockFree : Prog σ ε ι α → Prop
  | ret _ => True
  | @act _ _ _ _ β _ k => Nonempty β ∧ ∀ v, LockFree (k v)
  | acquire _ _ => False
  | release _ _ => False

/-- A body run under locks. -/
def under (body : Prog σ ε ι α) (locks : List ι) : Prog σ ε ι α :=
  (lockAll locks).bind fun _ => body.bind fun a => (unlockAll locks).bind fun _ => ret a

/-- What is left of `body.under locks` once it has its locks, and before it gives them back. -/
def Inside (locks : List ι) (p : Prog σ ε ι α) : Prop :=
  ∃ q : Prog σ ε ι α, q.LockFree ∧ p = q.bind fun a => (unlockAll locks).bind fun _ => ret a

variable [LinearOrder ι]

/-- From the locks `held` on, the program takes locks in ascending order and gives back what it has. -/
def Ascends : List ι → Prog σ ε ι α → Prop
  | _, ret _ => True
  | held, act _ k => ∀ v, Ascends held (k v)
  | held, acquire i k => (∀ j ∈ held, j < i) ∧ Ascends (i :: held) k
  | held, release i k => i ∈ held ∧ Ascends (held.erase i) k

theorem LockFree.ascends {r : α → Prog σ ε ι β} {held : List ι} (hr : ∀ a, Ascends held (r a)) :
    ∀ {q : Prog σ ε ι α}, q.LockFree → Ascends held (q.bind r) := by
  intro q
  induction q with
  | ret a => exact fun _ => hr a
  | act f k ih => exact fun h v => ih v (h.2 v)
  | acquire i k | release i k => exact False.elim

theorem ascends_unlockAll (hr : ∀ held, Ascends held r) : ∀ {locks held : List ι},
    held.Perm locks → Ascends held ((unlockAll locks).bind fun _ => r) := by
  intro locks
  induction locks with
  | nil => exact fun _ => hr _
  | cons i locks ih =>
    intro held h
    have herase := h.erase i
    rw [erase_cons_head] at herase
    exact ⟨h.mem_iff.2 mem_cons_self, ih herase⟩

theorem ascends_lockAll : ∀ {locks held : List ι}, (held.reverse ++ locks).Pairwise (· < ·) →
    Ascends (locks.reverse ++ held) r → Ascends held ((lockAll locks).bind fun _ => r) := by
  intro locks
  induction locks with
  | nil => exact fun _ h => h
  | cons i locks ih =>
    intro held hsorted h
    refine ⟨fun j hj => (pairwise_append.1 hsorted).2.2 j (mem_reverse.2 hj) i mem_cons_self, ih ?_ ?_⟩
    · rwa [reverse_cons, append_assoc]
    · rwa [reverse_cons, append_assoc] at h

theorem ascends_under {locks : List ι} {body : Prog σ ε ι α} (hsorted : locks.Pairwise (· < ·)) (hbody : body.LockFree) :
    Ascends [] (body.under locks) := by
  refine ascends_lockAll hsorted (hbody.ascends fun a => ascends_unlockAll (r := ret a) (fun _ => trivial) ?_)
  rw [append_nil]
  exact locks.reverse_perm

/-- What is given back is held. -/
theorem mem_of_ascends_unlockAll {i : ι} : ∀ {locks held : List ι},
    Ascends held ((unlockAll locks).bind fun _ => r) → i ∈ locks → i ∈ held := by
  intro locks
  induction locks with
  | nil => exact fun _ h => by cases h
  | cons j locks ih =>
    intro held h hi
    rcases mem_cons.1 hi with rfl | hi
    · exact h.1
    · exact mem_of_mem_erase (ih h.2 hi)

/-- Inside its section a program holds the locks of it. -/
theorem Inside.mem {locks held : List ι} {i : ι} {p : Prog σ ε ι α} (h : p.Inside locks) (hp : Ascends held p)
    (hi : i ∈ locks) : i ∈ held := by
  obtain ⟨q, hq, rfl⟩ := h
  induction q with
  | ret a => exact mem_of_ascends_unlockAll hp hi
  | act f k ih =>
    obtain ⟨⟨v⟩, hk⟩ := hq
    exact ih v (hk v) (hp v)
  | acquire i k | release i k => exact hq.elim

end Prog

namespace Pool

variable {Op σ ε ι α : Type} [LinearOrder ι] {S : System Op σ ε ι α} {w w' : Pool σ ε ι α} {i j : ℕ}

/-- Thread `i` wants lock `l`. -/
def Wants (w : Pool σ ε ι α) (i : ℕ) (l : ι) : Prop := ∃ t k, w.threads[i]? = some t ∧ t.prog = some (.acquire l k)

/-- Thread `i` holds lock `l`. -/
def Holds (w : Pool σ ε ι α) (i : ℕ) (l : ι) : Prop := ∃ t, w.threads[i]? = some t ∧ l ∈ t.held

/-- Thread `i` waits for thread `j`. -/
def Waits (w : Pool σ ε ι α) (i j : ℕ) : Prop := ∃ l, w.Wants i l ∧ w.Holds j l

/-- Every thread ascends from the locks it holds, and no two hold one lock. -/
structure Orderly (w : Pool σ ε ι α) : Prop where
  ascends : ∀ t ∈ w.threads, ∀ p ∈ t.prog, p.Ascends t.held
  apart : ∀ i j l, w.Holds i l → w.Holds j l → i = j

theorem Orderly.start (s : σ) : (start s : Pool σ ε ι α).Orderly := ⟨nofun, fun _ _ _ ⟨_, h, _⟩ => by cases h⟩

/-- **One move keeps the locks in order.** -/
theorem Orderly.next (hS : ∀ o, (S.prog o).Ascends []) (h : w.Orderly) {m : Move Op ε} (hm : w.next S m = some w') :
    w'.Orderly := by
  -- a lock that a thread holds after the move it held before, or it has just taken it
  have hkeep : ∀ {i l}, w'.Holds i l → w.Holds i l ∨ w.free l = true ∧ ∃ e, m = .run i e := by
    rintro i l ⟨t', ht', hl⟩
    rcases next_thread hm ht' with ht | ⟨o, -, rfl⟩ | rfl | ⟨e, t, hrun, ht, hst⟩
    · exact .inl ⟨t', ht, hl⟩
    · cases hl
    · cases hl
    · rcases stepThread_cases hst with ⟨_, _, _, _, -, -, rfl⟩ | ⟨l', k, -, hfree, -, rfl⟩ | ⟨l', k, -, -, rfl⟩
      · exact .inl ⟨t, ht, hl⟩
      · rcases mem_cons.1 hl with rfl | hl
        · exact .inr ⟨hfree, e, hrun⟩
        · exact .inl ⟨t, ht, hl⟩
      · exact .inl ⟨t, ht, mem_of_mem_erase hl⟩
  have hfree : ∀ {j l}, w.free l = true → ¬ w.Holds j l := by
    rintro j l hfree ⟨u, hu, hl⟩
    exact of_decide_eq_true (all_eq_true.1 hfree u (mem_of_getElem? hu)) hl
  refine ⟨fun t' ht' => ?_, fun i j l hi hj => ?_⟩
  · obtain ⟨i, hi⟩ := getElem?_of_mem ht'
    rcases next_thread hm hi with ht | ⟨o, -, rfl⟩ | rfl | ⟨e, t, -, ht, hst⟩
    · exact h.ascends t' (mem_of_getElem? ht)
    · exact fun p hp => by cases hp; exact hS o
    · exact nofun
    · have hasc := h.ascends t (mem_of_getElem? ht)
      rcases stepThread_cases hst with ⟨β, f, k, v, hp, -, rfl⟩ | ⟨l, k, hp, -, -, rfl⟩ | ⟨l, k, hp, -, rfl⟩ <;>
        intro p hp' <;> cases hp'
      · exact hasc _ hp v
      · exact (hasc _ hp).2
      · exact (hasc _ hp).2
  · rcases hkeep hi with hi | ⟨hl, e, rfl⟩ <;> rcases hkeep hj with hj | ⟨hl', e', he⟩
    · exact h.apart i j l hi hj
    · exact absurd hi (hfree hl')
    · exact absurd hj (hfree hl)
    · cases he
      rfl

theorem Reach.orderly (hS : ∀ o, (S.prog o).Ascends []) {ok : Pool σ ε ι α → Move Op ε → Prop} {s : σ}
    (h : Reach S ok (Pool.start s) w) : w.Orderly := by
  induction h with
  | refl => exact .start s
  | step m _ _ hm ih => exact ih.next hS hm

/-- What a thread wants is above what it holds. -/
theorem Orderly.lt (h : w.Orderly) {l l' : ι} (hl : w.Holds i l) (hl' : w.Wants i l') : l < l' := by
  obtain ⟨t, ht, hmem⟩ := hl
  obtain ⟨u, k, hu, hp⟩ := hl'
  cases ht.symm.trans hu
  exact (h.ascends t (mem_of_getElem? ht) _ hp).1 l hmem

/-- **Threads never wait for each other in a cycle.** -/
theorem Orderly.no_cycle (h : w.Orderly) : ¬ Relation.TransGen w.Waits i i := by
  have hgrows : ∀ {j : ℕ}, Relation.TransGen w.Waits i j → ∃ l, w.Wants i l ∧ ∀ l', w.Wants j l' → l < l' := by
    intro j hij
    induction hij with
    | single hw =>
      obtain ⟨l, hwant, hl⟩ := hw
      exact ⟨l, hwant, fun l' => h.lt hl⟩
    | tail _ hw ih =>
      obtain ⟨l, hwant, hlt⟩ := ih
      obtain ⟨l1, hwant1, hl1⟩ := hw
      exact ⟨l, hwant, fun l' hl' => (hlt l1 hwant1).trans (h.lt hl1 hl')⟩
  intro hcycle
  obtain ⟨l, hwant, hlt⟩ := hgrows hcycle
  exact lt_irrefl l (hlt l hwant)

end Pool

end Conc
