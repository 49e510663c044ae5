import QssStorage.Conc.Prog

/-!
# A logic of owned resources for pools

A `Protocol` is an invariant of the shared state and of a *resource* `γ`, a
commutative monoid that is divided among the threads: what a thread is owed, what
it left half done, what it knows because it holds a lock. Each thread owns a part
`g`; whatever the others own is a frame `r` it cannot touch. `wp P p Q g` says that
`p`, run by a thread that owns `g`, keeps the invariant at every step, whatever the
others do in between, and ends with a result and a resource that meet `Q`. What a
thread knows of the state is what the invariant says of its own part, so nothing has
to be said about interference.

* `Pool.Reach.inv`: **in every pool reached, with threads stopped and crashes
  anywhere, the invariant holds.**
-/

namespace Conc

open List

/-- An invariant of the shared state and of the resource divided among the threads.
`tok` says which locks a resource stands for, `allow` what the environment may answer, and
`within` which states a run is followed into. -/
structure Protocol (σ ε ι γ : Type) [AddCommMonoid γ] where
  allow : σ → ε → Prop
  within : σ → Prop
  tok : γ →+ Multiset ι
  inv : σ → γ → Prop

/-- What a protocol needs to survive stopped threads and crashes: a resource can always
be given up for one without locks, and the invariant outlives what a crash resets. -/
structure Protocol.Survives {Op σ ε ι ρ γ : Type} [AddCommMonoid γ] (P : Protocol σ ε ι γ)
    (S : System Op σ ε ι ρ) : Prop where
  drop : ∀ s g r, P.inv s (g + r) → ∃ g', P.tok g' = 0 ∧ P.inv s (g' + r)
  reset : ∀ s g, P.tok g = 0 → P.inv s g → ∃ g', P.tok g' = 0 ∧ P.inv (S.reset s) g'

section Rules

variable {σ ε ι γ α β : Type} [AddCommMonoid γ] [DecidableEq ι] {P : Protocol σ ε ι γ}
variable {p : Prog σ ε ι α}

/-- `p`, run by a thread that owns `g`, keeps the invariant and ends in `Q`. -/
def wp (P : Protocol σ ε ι γ) : Prog σ ε ι α → (α → γ → Prop) → γ → Prop
  | .ret a, Q, g => Q a g
  | .act f k, Q, g => ∀ s r, P.inv s (g + r) → ∀ e, P.allow s e → ∀ v s', f e s = some (v, s') →
      P.within s' → ∃ g', P.tok g' = P.tok g ∧ P.inv s' (g' + r) ∧ wp P (k v) Q g'
  | .acquire i k, Q, g => ∀ s r, P.inv s (g + r) → i ∉ P.tok (g + r) →
      ∃ g', P.tok g' = i ::ₘ P.tok g ∧ P.inv s (g' + r) ∧ wp P k Q g'
  | .release i k, Q, g => i ∈ P.tok g ∧ ∀ s r, P.inv s (g + r) →
      ∃ g', P.tok g' = (P.tok g).erase i ∧ P.inv s (g' + r) ∧ wp P k Q g'

/-- A weaker end, after fewer answers of the environment. -/
theorem wp_weaken {Q Q' : α → γ → Prop} {A : σ → ε → Prop} (hA : ∀ s e, A s e → P.allow s e)
    (hQ : ∀ a g, Q a g → Q' a g) : ∀ {g}, wp P p Q g → wp { P with allow := A } p Q' g := by
  induction p with
  | ret a => intro g h; exact hQ _ _ h
  | act f k ih =>
    intro g h s r hi e he v s' hf hin
    obtain ⟨g', ht, hi', hk⟩ := h s r hi e (hA s e he) v s' hf hin
    exact ⟨g', ht, hi', ih v hk⟩
  | acquire i k ih =>
    intro g h s r hi hn
    obtain ⟨g', ht, hi', hk⟩ := h s r hi hn
    exact ⟨g', ht, hi', ih hk⟩
  | release i k ih =>
    intro g h
    refine ⟨h.1, fun s r hi => ?_⟩
    obtain ⟨g', ht, hi', hk⟩ := h.2 s r hi
    exact ⟨g', ht, hi', ih hk⟩

theorem wp_mono {Q Q' : α → γ → Prop} (hQ : ∀ a g, Q a g → Q' a g) : ∀ {g}, wp P p Q g → wp P p Q' g :=
  wp_weaken (fun _ _ h => h) hQ

/-- Sequential composition. -/
theorem wp_bind {q : α → Prog σ ε ι β} {Q : β → γ → Prop} :
    ∀ {g}, wp P p (fun a => wp P (q a) Q) g → wp P (p.bind q) Q g := by
  induction p with
  | ret a => intro g h; exact h
  | act f k ih =>
    intro g h s r hi e he v s' hf hin
    obtain ⟨g', ht, hi', hk⟩ := h s r hi e he v s' hf hin
    exact ⟨g', ht, hi', ih v hk⟩
  | acquire i k ih =>
    intro g h s r hi hn
    obtain ⟨g', ht, hi', hk⟩ := h s r hi hn
    exact ⟨g', ht, hi', ih hk⟩
  | release i k ih =>
    intro g h
    refine ⟨h.1, fun s r hi => ?_⟩
    obtain ⟨g', ht, hi', hk⟩ := h.2 s r hi
    exact ⟨g', ht, hi', ih hk⟩

/-- **The frame rule**: what a program does not own it leaves alone. -/
theorem wp_frame {Q : α → γ → Prop} (x : γ) :
    ∀ {g}, wp P p Q g → wp P p (fun a g' => ∃ g1, g' = g1 + x ∧ Q a g1) (g + x) := by
  induction p with
  | ret a => intro g h; exact ⟨g, rfl, h⟩
  | act f k ih =>
    intro g h s r hi e he v s' hf hin
    rw [add_assoc] at hi
    obtain ⟨g', ht, hi', hk⟩ := h s (x + r) hi e he v s' hf hin
    exact ⟨g' + x, by rw [map_add, map_add, ht], by rw [add_assoc]; exact hi', ih v hk⟩
  | acquire i k ih =>
    intro g h s r hi hn
    rw [add_assoc] at hi hn
    obtain ⟨g', ht, hi', hk⟩ := h s (x + r) hi hn
    exact ⟨g' + x, by rw [map_add, map_add, ht, Multiset.cons_add], by rw [add_assoc]; exact hi', ih hk⟩
  | release i k ih =>
    intro g h
    refine ⟨by rw [map_add]; exact Multiset.mem_add.2 (.inl h.1), fun s r hi => ?_⟩
    rw [add_assoc] at hi
    obtain ⟨g', ht, hi', hk⟩ := h.2 s (x + r) hi
    refine ⟨g' + x, ?_, by rw [add_assoc]; exact hi', ih hk⟩
    rw [map_add, map_add, ht, Multiset.erase_add_left_pos _ h.1]

/-- Run `p` beside an untouched resource `x`. -/
theorem wp_framed {Q Q' : α → γ → Prop} {g x : γ} (h : wp P p Q g) (hQ : ∀ a g', Q a g' → Q' a (g' + x)) :
    wp P p Q' (g + x) := by
  refine wp_mono ?_ (wp_frame x h)
  rintro a _ ⟨g1, rfl, h1⟩
  exact hQ a g1 h1

/-- An error ends the composition, a value is handed on. -/
theorem wp_andThen {ξ : Type} {p : Prog σ ε ι (Except ξ α)} {q : α → Prog σ ε ι (Except ξ β)}
    {Q : Except ξ β → γ → Prop} {g : γ}
    (h : wp P p (fun a g' => (∀ v, a = .ok v → wp P (q v) Q g') ∧ ∀ e, a = .error e → Q (.error e) g') g) :
    wp P (p.andThen q) Q g := by
  refine wp_bind (wp_mono ?_ h)
  intro a g' hk
  cases a with
  | ok v => exact hk.1 v rfl
  | error e => exact hk.2 e rfl

end Rules

namespace Pool

variable {Op σ ε ι ρ γ : Type} [AddCommMonoid γ] [DecidableEq ι] {S : System Op σ ε ι ρ}
  {P : Protocol σ ε ι γ} {Q : ρ → γ → Prop}
variable {g0 : γ} {w w' : Pool σ ε ι ρ} {s : σ} {i : ℕ} {ok : Pool σ ε ι ρ → Move Op ε → Prop}
variable {gs : List γ} {ts : List (Thread σ ε ι ρ)}

/-- A thread owns `g`: its locks are those it holds, and the rest of its program is
safe to run from there. -/
def OwnedBy (P : Protocol σ ε ι γ) (Q : ρ → γ → Prop) (t : Thread σ ε ι ρ) (g : γ) : Prop :=
  P.tok g = t.held ∧ ∀ p, t.prog = some p → wp P p Q g

/-- The threads own `gs`, one each, and the invariant holds of that and of `g0`, which
belongs to no thread. -/
def Owned (P : Protocol σ ε ι γ) (Q : ρ → γ → Prop) (w : Pool σ ε ι ρ) (g0 : γ) : Prop :=
  P.tok g0 = 0 ∧ ∃ gs, List.Forall₂ (OwnedBy P Q) w.threads gs ∧ P.inv w.st (g0 + gs.sum)

theorem owned_start (h0 : P.tok g0 = 0) (h : P.inv s g0) : Owned P Q (start s : Pool σ ε ι ρ) g0 :=
  ⟨h0, [], List.Forall₂.nil, by simpa [start] using h⟩

/-- A thread of an owned pool, with its resource split off. -/
theorem split_owned (h : List.Forall₂ (OwnedBy P Q) ts gs) :
    ∀ {i : ℕ} {t : Thread σ ε ι ρ}, ts[i]? = some t → ∃ g x, gs[i]? = some g ∧ OwnedBy P Q t g ∧ gs.sum = g + x ∧
      P.tok x + t.held = ((ts.map fun u => (u.held : Multiset ι)).sum) ∧
      ∀ t' g', OwnedBy P Q t' g' → List.Forall₂ (OwnedBy P Q) (ts.set i t') (gs.set i g') ∧ (gs.set i g').sum = g' + x := by
  induction h with
  | nil => intro i t hi; simp at hi
  | @cons u g ts gs hu hts ih =>
    have htok : P.tok gs.sum = (ts.map fun v => (v.held : Multiset ι)).sum := by
      clear ih
      induction hts with
      | nil => simp
      | cons h _ ih => simp only [sum_cons, map_add, map_cons, ih, h.1]
    intro i t hi
    rcases i with _ | i
    · simp only [getElem?_cons_zero, Option.some.injEq] at hi
      subst hi
      refine ⟨g, gs.sum, rfl, hu, sum_cons, ?_, ?_⟩
      · rw [htok, map_cons, sum_cons, add_comm]
      · intro t' g' h'
        exact ⟨List.Forall₂.cons h' hts, sum_cons⟩
    rw [getElem?_cons_succ] at hi
    obtain ⟨g1, x, hg1, h1, hsum, hheld, hset⟩ := ih hi
    refine ⟨g1, g + x, hg1, h1, ?_, ?_, ?_⟩
    · rw [sum_cons, hsum, add_left_comm]
    · rw [map_add, hu.1, map_cons, sum_cons, ← hheld, add_assoc]
    · intro t' g' h'
      obtain ⟨hgs', hs'⟩ := hset t' g' h'
      exact ⟨List.Forall₂.cons hu hgs', by rw [set_cons_succ, sum_cons, hs', add_left_comm]⟩

omit [DecidableEq ι] in
theorem mem_sum_held {i : ι} : ∀ {ts : List (Thread σ ε ι ρ)},
    i ∈ (ts.map fun u => (u.held : Multiset ι)).sum → ∃ t ∈ ts, i ∈ t.held := by
  intro ts
  induction ts with
  | nil => intro h; simp at h
  | cons u ts ih =>
    intro h
    rw [map_cons, sum_cons, Multiset.mem_add] at h
    rcases h with h | h
    · exact ⟨u, mem_cons_self, Multiset.mem_coe.1 h⟩
    · obtain ⟨t, ht, hi⟩ := ih h
      exact ⟨t, mem_cons_of_mem _ ht, hi⟩

/-- One step of a thread, with the resource it had and the one it is left with. -/
theorem run_owned (h0 : P.tok g0 = 0) (hgs : List.Forall₂ (OwnedBy P Q) w.threads gs)
    (hinv : P.inv w.st (g0 + gs.sum)) {e : ε} (he : P.allow w.st e ∧ P.within w'.st)
    (hm : w.next S (.run i e) = some w') :
    ∃ g g' r, gs[i]? = some g ∧ P.inv w.st (g + r) ∧ P.inv w'.st (g' + r) ∧
      List.Forall₂ (OwnedBy P Q) w'.threads (gs.set i g') ∧ g0 + (gs.set i g').sum = g' + r := by
  obtain ⟨t, s', t', hi, hst, rfl⟩ := next_run hm
  obtain ⟨g, x, hgi, hg, hsum, hheld, hset⟩ := split_owned hgs hi
  have hinv' : P.inv w.st (g + (g0 + x)) := by rw [← add_left_comm, ← hsum]; exact hinv
  -- whatever resource the step leaves the thread with, the pool is owned again
  have hdone : ∀ s' t' g', OwnedBy P Q t' g' → P.inv s' (g' + (g0 + x)) →
      ∃ g g' r, gs[i]? = some g ∧ P.inv w.st (g + r) ∧ P.inv s' (g' + r) ∧
        List.Forall₂ (OwnedBy P Q) (w.threads.set i t') (gs.set i g') ∧ g0 + (gs.set i g').sum = g' + r := by
    intro s' t' g' ht' hi'
    obtain ⟨hgs', hs'⟩ := hset t' g' ht'
    exact ⟨g, g', g0 + x, hgi, hinv', hi', hgs', by rw [hs', add_left_comm]⟩
  rcases stepThread_cases hst with ⟨β, f, k, v, hp, hf, rfl⟩ | ⟨l, k, hp, hfree, rfl, rfl⟩ | ⟨l, k, hp, rfl, rfl⟩
  · obtain ⟨g', ht, hi', hk⟩ := hg.2 _ hp w.st (g0 + x) hinv' e he.1 v s' hf he.2
    exact hdone _ _ g' ⟨by rw [ht, hg.1], fun p hp' => by cases hp'; exact hk⟩ hi'
  · have hn : l ∉ P.tok (g + (g0 + x)) := by
      rw [map_add, map_add, h0, zero_add, hg.1, add_comm, hheld]
      intro hl
      obtain ⟨u, hu, hlu⟩ := mem_sum_held hl
      simp only [free, all_eq_true, decide_eq_true_eq] at hfree
      exact hfree u hu hlu
    obtain ⟨g', ht, hi', hk⟩ := hg.2 _ hp w.st (g0 + x) hinv' hn
    exact hdone _ _ g' ⟨by rw [ht, hg.1]; rfl, fun p hp' => by cases hp'; exact hk⟩ hi'
  · obtain ⟨g', ht, hi', hk⟩ := (hg.2 _ hp).2 w.st (g0 + x) hinv'
    exact hdone _ _ g' ⟨by rw [ht, hg.1, Multiset.coe_erase], fun p hp' => by cases hp'; exact hk⟩ hi'

/-- One step of a thread keeps the pool owned. -/
theorem Owned.run (h : Owned P Q w g0) {e : ε} (he : P.allow w.st e ∧ P.within w'.st)
    (hm : w.next S (.run i e) = some w') : Owned P Q w' g0 := by
  obtain ⟨h0, gs, hgs, hinv⟩ := h
  obtain ⟨g, g', r, -, -, hinv', hgs', hsum⟩ := run_owned h0 hgs hinv he hm
  exact ⟨h0, gs.set i g', hgs', by rw [hsum]; exact hinv'⟩

/-- A stopped thread gives up its locks and keeps the rest of its resource for good. -/
theorem stop_owned (hP : P.Survives S) (hgs : List.Forall₂ (OwnedBy P Q) w.threads gs)
    (hinv : P.inv w.st (g0 + gs.sum)) (i : ℕ) : ∃ gs', List.Forall₂ (OwnedBy P Q) (w.threads.set i ⟨none, []⟩) gs' ∧
      P.inv w.st (g0 + gs'.sum) ∧ ∀ j, i ≠ j → gs'[j]? = gs[j]? := by
  cases hi : w.threads[i]? with
  | none =>
    rw [set_eq_of_length_le (getElem?_eq_none_iff.1 hi)]
    exact ⟨gs, hgs, hinv, fun _ _ => rfl⟩
  | some t =>
    obtain ⟨g, x, -, -, hsum, -, hset⟩ := split_owned hgs hi
    have hinv' : P.inv w.st (g + (g0 + x)) := by rw [← add_left_comm, ← hsum]; exact hinv
    obtain ⟨g', ht, hi'⟩ := hP.drop _ _ _ hinv'
    obtain ⟨hgs', hs'⟩ := hset ⟨none, []⟩ g' ⟨ht, fun p hp => by cases hp⟩
    exact ⟨gs.set i g', hgs', by rw [hs', add_left_comm]; exact hi', fun j hj => getElem?_set_ne hj⟩

theorem Owned.stop (hP : P.Survives S) (h : Owned P Q w g0) (hm : w.next S (.stop i) = some w') : Owned P Q w' g0 := by
  obtain ⟨h0, gs, hgs, hinv⟩ := h
  cases hm
  obtain ⟨gs', hgs', hinv', -⟩ := stop_owned hP hgs hinv i
  exact ⟨h0, gs', hgs', hinv'⟩

/-- A new thread owns nothing. -/
theorem spawn_owned {p : Prog σ ε ι ρ} (hgs : List.Forall₂ (OwnedBy P Q) ts gs) (hp : wp P p Q 0) :
    List.Forall₂ (OwnedBy P Q) (ts ++ [⟨some p, []⟩]) (gs ++ [0]) := by
  refine rel_append hgs (List.Forall₂.cons ⟨map_zero _, ?_⟩ List.Forall₂.nil)
  intro q hq
  cases hq
  exact hp

theorem Owned.spawn (h : Owned P Q w g0) {o : Op} (ho : wp P (S.prog o) Q 0) (hm : w.next S (.spawn o) = some w') :
    Owned P Q w' g0 := by
  obtain ⟨h0, gs, hgs, hinv⟩ := h
  cases hm
  exact ⟨h0, gs ++ [0], spawn_owned hgs ho, by simpa using hinv⟩

/-- After a crash no thread owns anything. -/
theorem Owned.crash (hP : P.Survives S) (h : Owned P Q w g0) (hm : w.next S .crash = some w') : ∃ g1, Owned P Q w' g1 := by
  obtain ⟨-, gs, hgs, hinv⟩ := h
  cases hm
  obtain ⟨g1, ht1, hi1⟩ := hP.drop w.st (g0 + gs.sum) 0 (by rw [add_zero]; exact hinv)
  rw [add_zero] at hi1
  obtain ⟨g2, ht2, hi2⟩ := hP.reset _ _ ht1 hi1
  refine ⟨g2, ht2, w.threads.map fun _ => 0, ?_, by simpa using hi2⟩
  rw [forall₂_map_left_iff, forall₂_map_right_iff]
  exact forall₂_same.2 fun t _ => ⟨map_zero _, fun p hp => by cases hp⟩

/-- The steps that `ok` lets through are answered and lead where the protocol says. -/
def Follows (P : Protocol σ ε ι γ) (S : System Op σ ε ι ρ) (ok : Pool σ ε ι ρ → Move Op ε → Prop) : Prop :=
  ∀ w i e w', ok w (.run i e) → w.next S (.run i e) = some w' → P.allow w.st e ∧ P.within w'.st

/-- Every pool reached is owned: a stop or a crash leaves resources that belong to no thread. -/
theorem Reach.someOwned (hP : P.Survives S) (hops : ∀ w o, ok w (.spawn o) → wp P (S.prog o) Q 0)
    (hok : Follows P S ok) (h0 : P.tok g0 = 0) (hs : P.inv s g0)
    (h : Reach S ok (start s) w) : ∃ g1, Owned P Q w g1 := by
  induction h with
  | refl => exact ⟨g0, owned_start h0 hs⟩
  | @step w w' m _ hm hn ih =>
    obtain ⟨g1, ih⟩ := ih
    cases m with
    | spawn o => exact ⟨g1, ih.spawn (hops _ o hm) hn⟩
    | run i e => exact ⟨g1, ih.run (hok _ _ _ _ hm hn) hn⟩
    | stop i => exact ⟨g1, ih.stop hP hn⟩
    | crash => exact ih.crash hP hn

/-- **The invariant holds in every pool reached.** -/
theorem Reach.inv (hP : P.Survives S) (hops : ∀ w o, ok w (.spawn o) → wp P (S.prog o) Q 0)
    (hok : Follows P S ok) (h0 : P.tok g0 = 0) (hs : P.inv s g0)
    (h : Reach S ok (start s) w) : ∃ g, P.inv w.st g := by
  obtain ⟨g1, -, gs, -, hi⟩ := h.someOwned hP hops hok h0 hs
  exact ⟨_, hi⟩

/-- A run without stops and crashes keeps the initial resource apart from the threads'. -/
theorem Reach.owned (hops : ∀ w o, ok w (.spawn o) → wp P (S.prog o) Q 0)
    (hok : Follows P S ok) (hstop : ∀ w i, ¬ ok w (.stop i)) (hcrash : ∀ w, ¬ ok w .crash)
    (h0 : P.tok g0 = 0) (hs : P.inv s g0) (h : Reach S ok (start s) w) : Owned P Q w g0 := by
  induction h with
  | refl => exact owned_start h0 hs
  | @step w w' m _ hm hn ih =>
    cases m with
    | spawn o => exact ih.spawn (hops _ o hm) hn
    | run i e => exact ih.run (hok _ _ _ _ hm hn) hn
    | stop i => exact absurd hm (hstop _ _)
    | crash => exact absurd hm (hcrash _)

/-- Once every thread has returned, the invariant holds of what their results vouch for. -/
theorem Owned.finished (h : Owned P Q w g0) (hw : w.Finished) (hQ : ∀ a g, Q a g → g = 0) : P.inv w.st g0 := by
  obtain ⟨-, gs, hgs, hinv⟩ := h
  have hzero : gs.sum = 0 := by
    clear hinv
    unfold Finished at hw
    generalize w.threads = ts at hgs hw
    induction hgs with
    | nil => rfl
    | @cons t g ts gs ht hts ih =>
      obtain ⟨a, ha⟩ := Thread.returned_iff.1 (hw t mem_cons_self)
      have hg : g = 0 := hQ a g (ht.2 _ ha)
      rw [sum_cons, hg, zero_add]
      exact ih fun t ht => hw t (mem_cons_of_mem _ ht)
  rwa [hzero, add_zero] at hinv

end Pool

end Conc
