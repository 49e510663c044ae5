import QssStorage.Conc.Logic
import QssStorage.Conc.Runs

/-!
# What single steps do

`Steps G p Q` says that every step `p` takes, from whatever state it finds, is a step of the
relation `G`, and that what `p` returns meets `Q`. Nothing is said about the state between
two steps, so whatever other threads do there is covered.

Locks only restrict the schedules of a pool. An invariant that does not depend on them is
proved of the programs without their lock operations (`lockless`): a protocol for those
needs no account of who holds what.

* `Pool.Reach.steps`: **every move of a pool is a step of `G`**, if every operation's are.
* `Pool.Reach.inv_lockless`: **the invariant holds in every pool reached**, from proofs
  about the programs without locks.
-/

namespace Conc

namespace Prog

variable {σ ε ι α β : Type} {G : σ → σ → Prop}
variable {ξ : Type} {Q : α → Prop} {q : α → Prog σ ε ι β}
variable {p : Prog σ ε ι (Except ξ α)} (is : List ι)

/-- Every step of `p` is a step of `G`, and what it returns meets `Q`. -/
def Steps (G : σ → σ → Prop) : Prog σ ε ι α → (α → Prop) → Prop
  | ret a, Q => Q a
  | act f k, Q => ∀ e s v s', f e s = some (v, s') → G s s' ∧ Steps G (k v) Q
  | acquire _ k, Q => Steps G k Q
  | release _ k, Q => Steps G k Q

theorem Steps.mono {G' : σ → σ → Prop} {Q Q' : α → Prop} (hG : ∀ s s', G s s' → G' s s') (hQ : ∀ a, Q a → Q' a) :
    ∀ {p : Prog σ ε ι α}, Steps G p Q → Steps G' p Q' := by
  intro p
  induction p with
  | ret a => exact hQ a
  | act f k ih => intro h e s v s' hf; exact ⟨hG _ _ (h e s v s' hf).1, ih v (h e s v s' hf).2⟩
  | acquire i k ih | release i k ih => exact ih

theorem Steps.step {f : ε → σ → Option (α × σ)} (h : ∀ e s a s', f e s = some (a, s') → G s s' ∧ Q a) :
    Steps G (step f : Prog σ ε ι α) Q := h

theorem Steps.bind {Q : β → Prop} : ∀ {p : Prog σ ε ι α}, Steps G p (fun a => Steps G (q a) Q) → Steps G (p.bind q) Q := by
  intro p
  induction p with
  | ret a => exact id
  | act f k ih => intro h e s v s' hf; exact ⟨(h e s v s' hf).1, ih v (h e s v s' hf).2⟩
  | acquire i k ih | release i k ih => exact ih

/-- Two programs one after the other, nothing being handed over. -/
theorem Steps.seq {p : Prog σ ε ι α} {Q : β → Prop} (hp : Steps G p fun _ => True) (hq : ∀ a, Steps G (q a) Q) :
    Steps G (p.bind q) Q :=
  Steps.bind (hp.mono (fun _ _ h => h) fun a _ => hq a)

theorem Steps.andThen {q : α → Prog σ ε ι (Except ξ β)} {Q : Except ξ β → Prop}
    (hp : Steps G p fun r => (∀ a, r = .ok a → Steps G (q a) Q) ∧ ∀ e, r = .error e → Q (.error e)) :
    Steps G (p.andThen q) Q := by
  refine Steps.bind (hp.mono (fun _ _ h => h) ?_)
  intro r hr
  cases r with
  | ok a => exact hr.1 a rfl
  | error e => exact hr.2 e rfl

/-- The same, nothing being said of what is returned. -/
theorem Steps.thenTrue {q : α → Prog σ ε ι (Except ξ β)} (hp : Steps G p fun _ => True)
    (hq : ∀ a, Steps G (q a) fun _ => True) :
    Steps G (p.andThen q) fun _ => True :=
  Steps.andThen (hp.mono (fun _ _ h => h) fun _ _ => ⟨fun a _ => hq a, fun _ _ => trivial⟩)

/-- Of a program's steps nothing else is known. -/
theorem steps_any (p : Prog σ ε ι α) : Steps (fun _ _ => True) p fun _ => True := by
  induction p with
  | ret a => exact trivial
  | act f k ih => exact fun e s v s' _ => ⟨trivial, ih v⟩
  | acquire i k ih | release i k ih => exact ih

/-- A program over a component takes the steps it takes there. -/
theorem Steps.zoom {τ : Type} {H : τ → τ → Prop} {get : τ → σ} {set : σ → τ → τ}
    (hH : ∀ t s', G (get t) s' → H t (set s' t)) :
    ∀ {p : Prog σ ε ι α}, Steps G p Q → Steps H (p.zoom get set) Q := by
  intro p
  induction p with
  | ret a => exact id
  | act f k ih =>
    intro h e t v t' hf
    obtain ⟨⟨v', s'⟩, hf', heq⟩ := Option.map_eq_some_iff.1 hf
    cases heq
    exact ⟨hH _ _ (h e _ _ s' hf').1, ih _ (h e _ _ s' hf').2⟩
  | acquire i k ih | release i k ih => exact ih

theorem steps_lockAll : Steps G (lockAll is : Prog σ ε ι Unit) fun _ => True := by
  induction is with
  | nil => exact trivial
  | cons i is ih => exact ih

theorem steps_unlockAll : Steps G (unlockAll is : Prog σ ε ι Unit) fun _ => True := by
  induction is with
  | nil => exact trivial
  | cons i is ih => exact ih

/-! ## Looking -/

/-- The program takes no lock and changes nothing. -/
def Looks : Prog σ ε ι α → Prop
  | ret _ => True
  | act f k => ∀ e s v s', f e s = some (v, s') → s' = s ∧ Looks (k v)
  | acquire _ _ => False
  | release _ _ => False

theorem Looks.bind (hq : ∀ a, Looks (q a)) : ∀ {p : Prog σ ε ι α}, Looks p → Looks (p.bind q) := by
  intro p
  induction p with
  | ret a => exact fun _ => hq a
  | act f k ih => intro h e s v s' hf; exact ⟨(h e s v s' hf).1, ih v (h e s v s' hf).2⟩
  | acquire i k ih | release i k ih => exact nofun

theorem Looks.steps (hrefl : ∀ s, G s s) : ∀ {p : Prog σ ε ι α}, Looks p → Steps G p fun _ => True := by
  intro p
  induction p with
  | ret a => exact id
  | act f k ih =>
    intro h e s v s' hf
    obtain ⟨rfl, hk⟩ := h e s v s' hf
    exact ⟨hrefl _, ih v hk⟩
  | acquire i k ih | release i k ih => exact nofun

/-- What looking has and a sequence inherits from its parts. -/
structure Inherits (Φ : (α : Type) → Prog σ ε ι α → Prop) : Prop where
  looks : ∀ {α : Type} {p : Prog σ ε ι α}, Looks p → Φ α p
  bind : ∀ {α β : Type} {p : Prog σ ε ι α} {q : α → Prog σ ε ι β}, Φ α p → (∀ a, Φ β (q a)) → Φ β (p.bind q)

section Inherits

variable {Φ : (α : Type) → Prog σ ε ι α → Prop} (hΦ : Inherits Φ)

include hΦ

theorem Inherits.ret (a : α) : Φ α (.ret a) := hΦ.looks trivial

theorem Inherits.andThen {ξ : Type} {p : Prog σ ε ι (Except ξ α)} {q : α → Prog σ ε ι (Except ξ β)}
    (hp : Φ _ p) (hq : ∀ a, Φ _ (q a)) : Φ _ (p.andThen q) :=
  hΦ.bind hp fun
    | .ok a => hq a
    | .error _ => hΦ.ret _

end Inherits

theorem inherits_looks : Inherits fun α (p : Prog σ ε ι α) => Looks p := ⟨id, fun hp hq => hp.bind hq⟩

theorem inherits_steps (hrefl : ∀ s, G s s) : Inherits fun α (p : Prog σ ε ι α) => Steps G p fun _ => True :=
  ⟨fun h => h.steps hrefl, Steps.seq⟩

/-! ## Without locks -/

/-- The program without its lock operations. -/
def lockless : Prog σ ε ι α → Prog σ ε ι α
  | ret a => ret a
  | act f k => act f fun v => (k v).lockless
  | acquire _ k => k.lockless
  | release _ k => k.lockless

@[simp] theorem lockless_ret (a : α) : (ret a : Prog σ ε ι α).lockless = ret a := rfl

@[simp] theorem lockless_step (f : ε → σ → Option (α × σ)) : (step f : Prog σ ε ι α).lockless = step f := rfl

@[simp] theorem lockless_lock (i : ι) : (lock i : Prog σ ε ι Unit).lockless = ret () := rfl

@[simp] theorem lockless_unlock (i : ι) : (unlock i : Prog σ ε ι Unit).lockless = ret () := rfl

@[simp] theorem lockless_bind (p : Prog σ ε ι α) (q : α → Prog σ ε ι β) :
    (p.bind q).lockless = p.lockless.bind fun a => (q a).lockless := by
  induction p with
  | ret a => rfl
  | act f k ih => simp only [act_bind, lockless, ih]
  | acquire i k ih => simp only [acquire_bind, lockless, ih]
  | release i k ih => simp only [release_bind, lockless, ih]

@[simp] theorem lockless_andThen (p : Prog σ ε ι (Except ξ α)) (q : α → Prog σ ε ι (Except ξ β)) :
    (p.andThen q).lockless = p.lockless.andThen fun a => (q a).lockless := by
  unfold andThen
  rw [lockless_bind]
  congr
  funext r
  cases r <;> rfl

end Prog

open Prog

variable {Op σ ε ι ρ α γ : Type} [AddCommMonoid γ] [DecidableEq ι] {G : σ → σ → Prop}

/-- Steps that keep an invariant whatever the resource keep it. -/
theorem wp_of_steps {P : Protocol σ ε ι γ} (hG : ∀ s s' g, G s s' → P.inv s g → P.inv s' g) {Q : α → Prop} {g : γ} :
    ∀ {p : Prog σ ε ι α}, Steps G p Q → wp P p.lockless (fun a g' => Q a ∧ g' = g) g := by
  intro p
  induction p with
  | ret a => exact fun h => ⟨h, rfl⟩
  | act f k ih =>
    intro h s r hi e _ v s' hf _
    exact ⟨g, rfl, hG _ _ _ (h e s v s' hf).1 hi, ih v (h e s v s' hf).2⟩
  | acquire i k ih | release i k ih => exact ih

/-- Looking needs nothing and spends nothing. -/
theorem Prog.Looks.wp {P : Protocol σ ε ι γ} {g : γ} :
    ∀ {p : Prog σ ε ι α}, Looks p → Conc.wp P p (fun _ g' => g' = g) g := by
  intro p
  induction p with
  | ret a => exact fun _ => rfl
  | act f k ih =>
    intro h s r hi e _ v s' hf _
    obtain ⟨rfl, hk⟩ := h e s v s' hf
    exact ⟨g, rfl, hi, ih v hk⟩
  | acquire i k ih | release i k ih => exact nofun

namespace Pool

variable {S : System Op σ ε ι ρ} {m : Move Op ε}

/-- Every step of the thread is a step of `G`. -/
def StepsIn (G : σ → σ → Prop) (t : Thread σ ε ι ρ) : Prop := ∀ p, t.prog = some p → Steps G p fun _ => True

/-- One step of a thread. -/
theorem StepsIn.step (hrefl : ∀ s, G s s) {free : ι → Bool} {e : ε} {s s' : σ} {t t' : Thread σ ε ι ρ}
    (h : StepsIn G t) (hs : stepThread free e s t = some (s', t')) : G s s' ∧ StepsIn G t' := by
  rcases stepThread_cases hs with ⟨β, f, k, v, hp, hf, rfl⟩ | ⟨i, k, hp, -, rfl, rfl⟩ | ⟨i, k, hp, rfl, rfl⟩
  · obtain ⟨hg, hk⟩ := h _ hp e s v s' hf
    exact ⟨hg, fun p hp' => by cases hp'; exact hk⟩
  · have hk : Steps G k fun _ => True := h (.acquire i k) hp
    exact ⟨hrefl _, fun p hp' => by cases hp'; exact hk⟩
  · have hk : Steps G k fun _ => True := h (.release i k) hp
    exact ⟨hrefl _, fun p hp' => by cases hp'; exact hk⟩

/-- One move of a pool. -/
theorem next_steps (hrefl : ∀ s, G s s) (hreset : ∀ s, G s (S.reset s)) (hops : ∀ o, Steps G (S.prog o) fun _ => True)
    {w w' : Pool σ ε ι ρ} (h : ∀ t ∈ w.threads, StepsIn G t) (hm : w.next S m = some w') :
    G w.st w'.st ∧ ∀ t ∈ w'.threads, StepsIn G t := by
  refine ⟨?_, fun t' ht' => ?_⟩
  · cases m with
    | spawn o => cases hm; exact hrefl _
    | run i e =>
      obtain ⟨t, s', t', hi, hst, rfl⟩ := next_run hm
      exact ((h t (List.mem_of_getElem? hi)).step hrefl hst).1
    | stop i => cases hm; exact hrefl _
    | crash => cases hm; exact hreset _
  · obtain ⟨j, hj⟩ := List.getElem?_of_mem ht'
    rcases next_thread hm hj with ht | ⟨o, -, rfl⟩ | rfl | ⟨e, t, -, ht, hst⟩
    · exact h t' (List.mem_of_getElem? ht)
    · intro p hp
      cases hp
      exact hops o
    · exact nofun
    · exact ((h t (List.mem_of_getElem? ht)).step hrefl hst).2

/-- **Every move of a pool is a step of `G`.** -/
theorem Reach.steps (hrefl : ∀ s, G s s) (hreset : ∀ s, G s (S.reset s))
    (hops : ∀ o, Steps G (S.prog o) fun _ => True) {ok : Pool σ ε ι ρ → Move Op ε → Prop} {s : σ} {w : Pool σ ε ι ρ}
    (h : Reach S ok (start s) w) {w' : Pool σ ε ι ρ} (hm : w.next S m = some w') : G w.st w'.st := by
  have key : ∀ t ∈ w.threads, StepsIn G t := by
    clear hm
    induction h with
    | refl => exact nofun
    | step m _ _ hn ih => exact (next_steps hrefl hreset hops ih hn).2
  exact (next_steps hrefl hreset hops key hm).1

end Pool

/-! ## Pools without locks -/

/-- The thread without its lock operations. -/
def Thread.lockless (t : Thread σ ε ι ρ) : Thread σ ε ι ρ := ⟨t.prog.map Prog.lockless, []⟩

/-- The system without its lock operations. -/
def System.lockless (S : System Op σ ε ι ρ) : System Op σ ε ι ρ := ⟨fun o => (S.prog o).lockless, S.reset⟩

namespace Pool

variable {S : System Op σ ε ι ρ} {ok : Pool σ ε ι ρ → Move Op ε → Prop}

/-- The pool without its lock operations. -/
def lockless (w : Pool σ ε ι ρ) : Pool σ ε ι ρ := ⟨w.st, w.threads.map Thread.lockless⟩

/-- Without locks a move is the same move, or none. -/
theorem next_lockless {w w' : Pool σ ε ι ρ} {m : Move Op ε} (hm : w.next S m = some w') :
    w'.lockless = w.lockless ∨ w.lockless.next S.lockless m = some w'.lockless := by
  cases m with
  | spawn o =>
    cases hm
    exact .inr (by simp [next, lockless, System.lockless, Thread.lockless])
  | run i e =>
    obtain ⟨t, s', t', hi, hst, rfl⟩ := next_run hm
    have hi' : w.lockless.threads[i]? = some t.lockless := by simp [lockless, hi]
    -- a lock operation leaves the state and the rest of the program
    have hsame : s' = w.st → t'.lockless = t.lockless → lockless ⟨s', w.threads.set i t'⟩ = w.lockless := by
      intro hs ht
      have hset : (w.threads.map Thread.lockless).set i t.lockless = w.threads.map Thread.lockless := by
        obtain ⟨hlt, heq⟩ := List.getElem?_eq_some_iff.1 hi'
        rw [← heq]
        exact List.set_getElem_self hlt
      unfold lockless
      rw [List.map_set, ht, hset, hs]
    rcases stepThread_cases hst with ⟨β, f, k, v, hp, hf, rfl⟩ | ⟨l, k, hp, -, rfl, rfl⟩ | ⟨l, k, hp, rfl, rfl⟩
    · refine Or.inr ?_
      have hp' : t.lockless.prog = some (.act f fun v => (k v).lockless) := by
        unfold Thread.lockless
        rw [hp]
        rfl
      have hstep : stepThread w.lockless.free e w.lockless.st t.lockless = some (s', ⟨some (k v).lockless, []⟩) := by
        unfold stepThread
        rw [hp']
        change (f e w.st).map _ = _
        rw [hf]
        rfl
      simp only [next, hi', hstep, Option.map_some]
      simp [lockless, Thread.lockless]
    · exact .inl (hsame rfl (by unfold Thread.lockless; rw [hp]; rfl))
    · exact .inl (hsame rfl (by unfold Thread.lockless; rw [hp]; rfl))
  | stop i =>
    cases hm
    exact .inr (by simp [next, lockless, Thread.lockless])
  | crash =>
    cases hm
    exact .inr (by simp [next, lockless, System.lockless, Thread.lockless, Function.comp_def])

/-- A run of a system is a run of it without locks. -/
theorem Reach.lockless {w0 w : Pool σ ε ι ρ} (h : Reach S ok w0 w) :
    Reach S.lockless (fun v m => ∃ w, w.lockless = v ∧ ok w m) w0.lockless w.lockless := by
  induction h with
  | refl => exact .refl
  | step m _ hok hn ih =>
    rcases next_lockless hn with heq | hn'
    · rw [heq]; exact ih
    · exact .step m ih ⟨_, rfl, hok⟩ hn'

/-- **The invariant holds in every pool reached**, if the programs without locks keep it. -/
theorem Reach.inv_lockless {P : Protocol σ ε ι γ} {Q : ρ → γ → Prop} (htok : P.tok = 0)
    (hdrop : ∀ s g r, P.inv s (g + r) → ∃ g', P.inv s (g' + r))
    (hreset : ∀ s g, P.inv s g → ∃ g', P.inv (S.reset s) g')
    (hops : ∀ w o, ok w (.spawn o) → wp P (S.prog o).lockless Q 0)
    (hok : ∀ w i e, ok w (.run i e) → P.allow w.st e) (hin : ∀ s, P.within s)
    {s : σ} {g0 : γ} (hs : P.inv s g0) {w : Pool σ ε ι ρ} (h : Reach S ok (start s) w) : ∃ g, P.inv w.st g := by
  have hP : P.Survives S.lockless := by
    refine ⟨fun s g r hi => ?_, fun s g _ hi => ?_⟩
    · obtain ⟨g', hg'⟩ := hdrop s g r hi
      exact ⟨g', by rw [htok]; rfl, hg'⟩
    · obtain ⟨g', hg'⟩ := hreset s g hi
      exact ⟨g', by rw [htok]; rfl, hg'⟩
  have hrun : Reach S.lockless _ (start s) w.lockless := h.lockless
  refine Reach.inv (w := w.lockless) hP (Q := Q) ?_ ?_ (by rw [htok]; rfl) hs hrun
  · rintro _ o ⟨v, rfl, hv⟩
    exact hops v o hv
  · rintro _ i e w' ⟨v, rfl, hv⟩ _
    exact ⟨hok v i e hv, hin _⟩

end Pool

end Conc
