import QssStorage.Conc.Among

/-!
# What one thread of a pool adds

The turns of one thread in a run of a pool (`Pool.Trace`), and what they add up to. Where the
invariant of a protocol fixes, step by step, a quantity of the state by the resource of the
thread that takes the step, the thread's turns add up to what its resource grew by: what the
other threads do in between does not matter.

* `Pool.Trace.metered`: **the turns of a thread add up to what it owns in the end.**
-/

namespace Conc

open List

namespace Prog

variable {σ ε ι α β γ : Type}

/-- The steps the environment answers with `e` in a state `s` that the test allows, and no others. -/
def guarded (ok : ε → σ → Bool) : Prog σ ε ι α → Prog σ ε ι α
  | ret a => ret a
  | act f k => act (fun e s => if ok e s then f e s else none) fun v => (k v).guarded ok
  | acquire i k => acquire i (k.guarded ok)
  | release i k => release i (k.guarded ok)

variable {ok : ε → σ → Bool}

@[simp] theorem guarded_bind (p : Prog σ ε ι α) (q : α → Prog σ ε ι β) :
    (p.bind q).guarded ok = (p.guarded ok).bind fun a => (q a).guarded ok := by
  induction p with
  | ret a => rfl
  | act f k ih => simp only [act_bind, guarded, ih]
  | acquire i k ih => simp only [acquire_bind, guarded, ih]
  | release i k ih => simp only [release_bind, guarded, ih]

@[simp] theorem guarded_andThen {ξ : Type} (p : Prog σ ε ι (Except ξ α)) (q : α → Prog σ ε ι (Except ξ β)) :
    (p.andThen q).guarded ok = (p.guarded ok).andThen fun a => (q a).guarded ok := by
  unfold andThen
  rw [guarded_bind]
  congr
  funext r
  cases r <;> rfl

/-- A guarded program gets only the answers that the test allows. -/
theorem wp_guarded [AddCommMonoid γ] [DecidableEq ι] {P : Protocol σ ε ι γ} {Q : α → γ → Prop} :
    ∀ {p : Prog σ ε ι α} {g : γ}, wp { P with allow := fun s e => P.allow s e ∧ ok e s = true } p Q g →
      wp P (p.guarded ok) Q g := by
  intro p
  induction p with
  | ret a => intro g h; exact h
  | act f k ih =>
    intro g h s r hi e he v s' hf hin
    dsimp only at hf
    split at hf
    · rename_i hok
      obtain ⟨g', ht, hi', hk⟩ := h s r hi e ⟨he, hok⟩ v s' hf hin
      exact ⟨g', ht, hi', ih v hk⟩
    · cases hf
  | acquire i k ih =>
    intro g h s r hi hn
    obtain ⟨g', ht, hi', hk⟩ := h s r hi hn
    exact ⟨g', ht, hi', ih hk⟩
  | release i k ih =>
    intro g h
    refine ⟨h.1, fun s r hi => ?_⟩
    obtain ⟨g', ht, hi', hk⟩ := h.2 s r hi
    exact ⟨g', ht, hi', ih hk⟩

theorem Steps.guarded {G : σ → σ → Prop} {Q : α → Prop} : ∀ {p : Prog σ ε ι α}, Steps G p Q → Steps G (p.guarded ok) Q := by
  intro p
  induction p with
  | ret a => exact id
  | act f k ih =>
    intro h e s v s' hf
    dsimp only at hf
    split at hf
    · exact ⟨(h e s v s' hf).1, ih v (h e s v s' hf).2⟩
    · cases hf
  | acquire i k ih | release i k ih => exact ih

end Prog

/-- A move that neither belongs to thread `i` nor ends it. -/
def Move.Spares {Op ε : Type} (i : ℕ) : Move Op ε → Prop
  | .spawn _ => True
  | .run j _ => j ≠ i
  | .stop j => j ≠ i
  | .crash => False

namespace Pool

variable {Op σ ε ι ρ γ M Λ : Type} [DecidableEq ι] (S : System Op σ ε ι ρ) (ok : Pool σ ε ι ρ → Move Op ε → Prop)
variable {tr : List (Turn Unit σ)} {t : Thread σ ε ι ρ}

/-- A run of a pool as thread `i` sees it. -/
inductive Trace (i : ℕ) : Pool σ ε ι ρ → List (Turn Unit σ) → Pool σ ε ι ρ → Prop
  | refl (w : Pool σ ε ι ρ) : Trace i w [] w
  | own {w w1 w' : Pool σ ε ι ρ} {e : ε} {tr : List (Turn Unit σ)} (hok : ok w (.run i e))
      (hm : w.next S (.run i e) = some w1) (h : Trace i w1 tr w') : Trace i w (.own w.st w1.st :: tr) w'
  | other {w w1 w' : Pool σ ε ι ρ} {m : Move Op ε} {tr : List (Turn Unit σ)} (hspares : m.Spares i) (hok : ok w m)
      (hm : w.next S m = some w1) (h : Trace i w1 tr w') : Trace i w (.other () w.st w1.st :: tr) w'

variable {S ok} {i : ℕ}

/-- A move that spares a thread leaves it as it is. -/
theorem next_spares {w w1 : Pool σ ε ι ρ} {m : Move Op ε} (hspares : m.Spares i) (hm : w.next S m = some w1)
    (ht : w.threads[i]? = some t) : w1.threads[i]? = some t := by
  cases m with
  | spawn o =>
    cases hm
    rw [getElem?_append_left (List.getElem?_eq_some_iff.1 ht).1]
    exact ht
  | run j e =>
    obtain ⟨-, -, t', -, -, rfl⟩ := next_run hm
    rw [getElem?_set_ne hspares]
    exact ht
  | stop j =>
    cases hm
    rw [getElem?_set_ne hspares]
    exact ht
  | crash => exact hspares.elim

open Prog in
/-- **The turns of a thread are a run of its program among others.** -/
theorem Trace.among {w w' : Pool σ ε ι ρ} (h : Trace S ok i w tr w') :
    ∀ {t t' : Thread σ ε ι ρ} {p : Prog σ ε ι ρ} {a : ρ}, w.threads[i]? = some t → t.prog = some p →
      w'.threads[i]? = some t' → t'.prog = some (.ret a) → Among (fun _ _ _ => True) p w.st tr a w'.st := by
  induction h with
  | refl w =>
    intro t t' p a ht hp ht' ha
    cases ht.symm.trans ht'
    cases hp.symm.trans ha
    exact ⟨rfl, rfl⟩
  | @own w w1 w' e tr _ hm _ ih =>
    intro t t' p a ht hp ht' ha
    have hin : i < w.threads.length := (List.getElem?_eq_some_iff.1 ht).1
    obtain ⟨_, s1, t1, hin', hst, rfl⟩ := next_run hm
    cases ht.symm.trans hin'
    have ht1 : (w.threads.set i t1)[i]? = some t1 := by rw [getElem?_set_self hin]
    rcases stepThread_cases hst with ⟨β, f, k, v, hk, hf, rfl⟩ | ⟨l, k, hk, -, rfl, rfl⟩ | ⟨l, k, hk, rfl, rfl⟩
    all_goals cases hp.symm.trans hk
    · exact ⟨[], w.st, e, v, s1, tr, rfl, hf, rfl, ih ht1 rfl ht' ha⟩
    · exact ⟨[], w.st, tr, rfl, rfl, ih ht1 rfl ht' ha⟩
    · exact ⟨[], w.st, tr, rfl, rfl, ih ht1 rfl ht' ha⟩
  | other hspares _ hm _ ih =>
    intro t t' p a ht hp ht' ha
    exact (ih (next_spares hspares hm ht) hp ht' ha).after trivial

open Prog in
/-- The turns of a thread from its start on. -/
theorem Trace.spawned {w w1 w' : Pool σ ε ι ρ} {o : Op} (hspawn : w.next S (.spawn o) = some w1)
    (htr : Trace S ok w.threads.length w1 tr w') {a : ρ} (ht : w'.threads[w.threads.length]? = some t)
    (hret : t.prog = some (.ret a)) :
    Among (fun _ _ _ => True) (S.prog o) w.st tr a w'.st := by
  cases hspawn
  have hthread : (w.threads ++ [⟨some (S.prog o), []⟩])[w.threads.length]? = some ⟨some (S.prog o), []⟩ := by
    rw [getElem?_append_right le_rfl, Nat.sub_self]
    rfl
  exact htr.among hthread rfl ht hret

/-- The turns of the thread itself: the state before each, and the state after it. -/
def ownTurns (tr : List (Turn Λ σ)) : List (σ × σ) :=
  tr.filterMap fun
    | .own s s' => some (s, s')
    | .other _ _ _ => none

@[simp] theorem ownTurns_own (s s' : σ) (tr : List (Turn Λ σ)) : ownTurns (.own s s' :: tr) = (s, s') :: ownTurns tr := rfl

@[simp] theorem ownTurns_other (l : Λ) (s s' : σ) (tr : List (Turn Λ σ)) :
    ownTurns (.other l s s' :: tr) = ownTurns tr := rfl

/-- The account that notes the turns of the thread. -/
def noted (ts : List (σ × σ)) : Turn Λ σ → List (σ × σ)
  | .own s s' => ts ++ [(s, s')]
  | .other _ _ _ => ts

theorem foldl_noted : ∀ (tr : List (Turn Λ σ)) (ts : List (σ × σ)), tr.foldl noted ts = ts ++ ownTurns tr := by
  intro tr
  induction tr with
  | nil => exact fun ts => (append_nil ts).symm
  | cons t tr ih =>
    intro ts
    cases t with
    | own s s' => rw [foldl_cons, ih, ownTurns_own, noted, append_assoc, singleton_append]
    | other l s s' => rw [foldl_cons, ih, ownTurns_other, noted]

/-- The turns of the others are not noted. -/
theorem stable_noted {R : Λ → σ → σ → Prop} (J : List (σ × σ) → Prop) : Prog.Stable noted R fun _ ts => J ts :=
  fun _ _ _ _ _ h => h

omit [DecidableEq ι] in
open Prog in
/-- The thread's own turns are steps of its program. -/
theorem ownTurns_steps {R : Λ → σ → σ → Prop} {G : σ → σ → Prop} {K : α → Prop} {p : Prog σ ε ι α}
    {s s' : σ} {a : α} {tr : List (Turn Λ σ)} (hrun : Among R p s tr a s') (hrefl : ∀ s, G s s)
    (hp : Steps G p K) : ∀ t ∈ ownTurns tr, G t.1 t.2 := by
  have hnoted := tallies_quiet (stable_noted (R := R) fun ts => ∀ t ∈ ts, G t.1 t.2)
    (fun s s' ts hG hts => forall_mem_append.2 ⟨hts, forall_mem_singleton.2 hG⟩) hrefl hp
  have hall := (hnoted s tr a s' hrun [] (fun _ ht => absurd ht not_mem_nil)).2
  rwa [foldl_noted, nil_append] at hall

/-- A run in which no other thread takes a turn: what the turns change adds up to what the run changes. -/
theorem Trace.solo [AddCommGroup M] {J : σ → Prop} [DecidablePred J] {w' : Pool σ ε ι ρ} :
    ∀ {es : List ε} {w : Pool σ ε ι ρ}, Pool.execInto S J (es.map (.run i)) w = some w' →
      ∃ tr, Trace S (Into S J) i w tr w' ∧
        ∀ f : σ → M, ((ownTurns tr).map fun t => f t.2 - f t.1).sum = f w'.st - f w.st := by
  intro es
  induction es with
  | nil =>
    intro w he
    cases he
    exact ⟨[], .refl _, fun f => (sub_self _).symm⟩
  | cons e es ih =>
    intro w he
    obtain ⟨w1, hm, hinto, he⟩ := execInto_cons he
    obtain ⟨tr, htr, hsum⟩ := ih he
    refine ⟨_, .own hinto hm htr, fun f => ?_⟩
    rw [ownTurns_own, map_cons, sum_cons, hsum, sub_add_sub_cancel']

variable [AddCommMonoid γ] [AddCommGroup M] {P : Protocol σ ε ι γ} {Q : ρ → γ → Prop}

/-- **The turns of a thread add up to what it owns in the end**, if every step adds what the resource grows by. -/
theorem Trace.metered (hP : P.Survives S) (hops : ∀ w o, ok w (.spawn o) → wp P (S.prog o) Q 0)
    (hok : Follows P S ok) (φ : γ → M) (μ : σ → σ → M)
    (hμ : ∀ s s' g g' r, P.inv s (g + r) → P.inv s' (g' + r) → μ s s' = φ g' - φ g) {w w' : Pool σ ε ι ρ}
    (h : Trace S ok i w tr w') :
    ∀ {g0 g : γ} {gs : List γ}, P.tok g0 = 0 → List.Forall₂ (OwnedBy P Q) w.threads gs → P.inv w.st (g0 + gs.sum) →
      gs[i]? = some g → ∃ gs' g', List.Forall₂ (OwnedBy P Q) w'.threads gs' ∧ P.inv w'.st (g0 + gs'.sum) ∧
        gs'[i]? = some g' ∧ φ g' - φ g = ((ownTurns tr).map fun t => μ t.1 t.2).sum := by
  induction h with
  | refl w =>
    intro g0 g gs _ hgs hinv hg
    exact ⟨gs, g, hgs, hinv, hg, by rw [sub_self]; rfl⟩
  | @own w w1 w' e tr hmove hm _ ih =>
    intro g0 g gs h0 hgs hinv hg
    obtain ⟨g1, g', r, hg1, hbefore, hafter, hgs', hsum⟩ := run_owned h0 hgs hinv (hok _ _ _ _ hmove hm) hm
    cases hg.symm.trans hg1
    have hin : i < gs.length := (List.getElem?_eq_some_iff.1 hg).1
    obtain ⟨gs'', g'', hgs'', hinv'', hg'', hadd⟩ := ih h0 hgs' (by rw [hsum]; exact hafter) (getElem?_set_self hin)
    refine ⟨gs'', g'', hgs'', hinv'', hg'', ?_⟩
    rw [ownTurns_own, map_cons, sum_cons, ← hadd, hμ _ _ _ _ _ hbefore hafter, sub_add_sub_cancel']
  | @other w w1 w' m tr hspares hmove hm _ ih =>
    intro g0 g gs h0 hgs hinv hg
    -- what the others do leaves the resource of the thread alone
    have hnext : ∃ gs1, List.Forall₂ (OwnedBy P Q) w1.threads gs1 ∧ P.inv w1.st (g0 + gs1.sum) ∧ gs1[i]? = some g := by
      cases m with
      | spawn o =>
        cases hm
        refine ⟨gs ++ [0], spawn_owned hgs (hops _ _ hmove), by simpa using hinv, ?_⟩
        rw [getElem?_append_left (List.getElem?_eq_some_iff.1 hg).1]
        exact hg
      | run j e =>
        obtain ⟨_, g', r, -, -, hafter, hgs', hsum⟩ := run_owned h0 hgs hinv (hok _ _ _ _ hmove hm) hm
        exact ⟨gs.set j g', hgs', by rw [hsum]; exact hafter, by rw [getElem?_set_ne hspares]; exact hg⟩
      | stop j =>
        cases hm
        obtain ⟨gs', hgs', hinv', hsame⟩ := stop_owned hP hgs hinv j
        exact ⟨gs', hgs', hinv', by rw [hsame i hspares]; exact hg⟩
      | crash => exact hspares.elim
    obtain ⟨gs1, hgs1, hinv1, hg1⟩ := hnext
    obtain ⟨gs', g', hgs', hinv', hg', hadd⟩ := ih h0 hgs1 hinv1 hg1
    refine ⟨gs', g', hgs', hinv', hg', ?_⟩
    rw [ownTurns_other, hadd]

/-- A thread that is started with nothing, in any pool reached, and returns. -/
theorem Reach.metered (hP : P.Survives S) (hops : ∀ w o, ok w (.spawn o) → wp P (S.prog o) Q 0)
    (hok : Follows P S ok) (φ : γ → M) (μ : σ → σ → M)
    (hμ : ∀ s s' g g' r, P.inv s (g + r) → P.inv s' (g' + r) → μ s s' = φ g' - φ g) {s : σ} {g0 : γ}
    (h0 : P.tok g0 = 0) (hs : P.inv s g0) {w w1 w' : Pool σ ε ι ρ} (hw : Reach S ok (start s) w) {o : Op}
    (ho : ok w (.spawn o)) (hspawn : w.next S (.spawn o) = some w1) (htr : Trace S ok w.threads.length w1 tr w')
    {a : ρ} (ht : w'.threads[w.threads.length]? = some t) (hret : t.prog = some (.ret a)) :
    ∃ g, Q a g ∧ φ g - φ 0 = ((ownTurns tr).map fun t => μ t.1 t.2).sum := by
  obtain ⟨g1, hg1, gs, hgs, hinv⟩ := hw.someOwned hP hops hok h0 hs
  cases hspawn
  have hg : (gs ++ [0])[w.threads.length]? = some 0 := by
    rw [hgs.length_eq, getElem?_append_right le_rfl, Nat.sub_self]
    rfl
  obtain ⟨gs', g', hgs', -, hg', hsum⟩ := htr.metered hP hops hok φ μ hμ hg1 (spawn_owned hgs (hops w o ho)) (by simpa using hinv) hg
  obtain ⟨g'', x, hg'', howned, -⟩ := split_owned hgs' ht
  cases hg'.symm.trans hg''
  exact ⟨g', howned.2 _ hret, hsum⟩

end Pool

end Conc
