import QssStorage.Conc.Steps

/-!
# A program with nothing beside it

`Alone` is what a program does with nothing beside it: every step is a step of `G`, and
wherever it ends `Q` holds of what it returns and of the state. `Pool.Started` keeps, beside
a pool, which operation each of its threads was started for, so that what may be under way
together can be said of the operations.

* `Pool.alone_stepThread`, `Pool.steps_stepThread`: one step of a thread of a pool.
-/

namespace Conc

namespace Prog

variable {σ ε ι α β : Type} {ok : ε → Prop} {G : σ → σ → Prop}
variable {Q Q' : α → σ → Prop} {s : σ}

/-- With nothing beside it, `p` takes steps of `G` only and ends in `Q`. -/
def Alone (ok : ε → Prop) (G : σ → σ → Prop) : Prog σ ε ι α → (α → σ → Prop) → σ → Prop
  | ret a, Q, s => Q a s
  | act f k, Q, s => ∀ e v s', ok e → f e s = some (v, s') → G s s' ∧ Alone ok G (k v) Q s'
  | acquire _ k, Q, s => Alone ok G k Q s
  | release _ k, Q, s => Alone ok G k Q s

theorem Alone.weaken {G' : σ → σ → Prop} (hG : ∀ s s', G s s' → G' s s') (hQ : ∀ a s, Q a s → Q' a s) :
    ∀ {p : Prog σ ε ι α} {s : σ}, Alone ok G p Q s → Alone ok G' p Q' s := by
  intro p
  induction p with
  | ret a => exact hQ a _
  | act f k ih =>
    intro s h e v s' he hf
    exact ⟨hG _ _ (h e v s' he hf).1, ih v (h e v s' he hf).2⟩
  | acquire i k ih | release i k ih => exact ih

theorem Alone.mono (hQ : ∀ a s, Q a s → Q' a s) {p : Prog σ ε ι α} (h : Alone ok G p Q s) : Alone ok G p Q' s :=
  h.weaken (fun _ _ h => h) hQ

theorem alone_step {f : ε → σ → Option (α × σ)} (h : ∀ e a s', ok e → f e s = some (a, s') → G s s' ∧ Q a s') :
    Alone ok G (step f : Prog σ ε ι α) Q s := h

theorem alone_bind {q : α → Prog σ ε ι β} {Q : β → σ → Prop} : ∀ {p : Prog σ ε ι α} {s : σ},
    Alone ok G p (fun a => Alone ok G (q a) Q) s → Alone ok G (p.bind q) Q s := by
  intro p
  induction p with
  | ret a => exact fun h => h
  | act f k ih =>
    intro s h e v s' he hf
    exact ⟨(h e v s' he hf).1, ih v (h e v s' he hf).2⟩
  | acquire i k ih | release i k ih => exact ih

theorem alone_andThen {ξ : Type} {p : Prog σ ε ι (Except ξ α)} {q : α → Prog σ ε ι (Except ξ β)}
    {Q : Except ξ β → σ → Prop}
    (h : Alone ok G p (fun r s => (∀ a, r = .ok a → Alone ok G (q a) Q s) ∧ ∀ e, r = .error e → Q (.error e) s) s) :
    Alone ok G (p.andThen q) Q s := by
  refine alone_bind (h.mono fun r s hr => ?_)
  cases r with
  | ok a => exact hr.1 a rfl
  | error e => exact hr.2 e rfl

/-- A program whose steps keep an invariant. -/
theorem alone_of_steps {I : σ → Prop} (hI : ∀ s s', G s s' → I s → I s') {Q : α → Prop} :
    ∀ {p : Prog σ ε ι α} {s : σ}, Steps G p Q → I s → Alone ok G p (fun a s => Q a ∧ I s) s := by
  intro p
  induction p with
  | ret a => exact fun hp hs => ⟨hp, hs⟩
  | act f k ih =>
    intro s hp hs e v s' _ hf
    have hstep := hp e s v s' hf
    exact ⟨hstep.1, ih v hstep.2 (hI _ _ hstep.1 hs)⟩
  | acquire i k ih | release i k ih => exact ih

/-- What a complete run does. -/
theorem Alone.of_runs {a : α} {s' : σ} :
    ∀ {p : Prog σ ε ι α} {s : σ}, Alone ok G p Q s → Runs ok p s a s' → Q a s' := by
  intro p
  induction p with
  | ret b => rintro s h ⟨rfl, rfl⟩; exact h
  | act f k ih =>
    rintro s h ⟨e, v, s1, he, hf, hr⟩
    exact ih v (h e v s1 he hf).2 hr
  | acquire i k ih | release i k ih => exact ih

end Prog

open Prog

variable {Op σ ε ι ρ : Type} [DecidableEq ι] {okε : ε → Prop} {G : σ → σ → Prop}

/-- The thread is not under way. -/
def Thread.done (t : Thread σ ε ι ρ) : Prop := t.prog = none ∨ t.returned = true

namespace Pool

variable {w : Pool σ ε ι ρ} {e : ε} {free : ι → Bool} {S : System Op σ ε ι ρ}

/-- The pools reached by moves that meet `ok`, beside the operations their threads were started
for: the thread at a place runs the operation at that place. -/
inductive Started (S : System Op σ ε ι ρ) (ok : List Op → Pool σ ε ι ρ → Move Op ε → Prop) (s : σ) :
    List Op → Pool σ ε ι ρ → Prop
  | start : Started S ok s [] (start s)
  | spawn {ops w} (o : Op) : Started S ok s ops w → ok ops w (.spawn o) →
      Started S ok s (ops ++ [o]) ⟨w.st, w.threads ++ [⟨some (S.prog o), []⟩]⟩
  | run {ops w w'} (i : ℕ) (e : ε) : Started S ok s ops w → ok ops w (.run i e) →
      w.next S (.run i e) = some w' → Started S ok s ops w'
  | stop {ops w} (i : ℕ) : Started S ok s ops w → ok ops w (.stop i) →
      Started S ok s ops ⟨w.st, w.threads.set i ⟨none, []⟩⟩
  | crash {ops w} : Started S ok s ops w → ok ops w .crash →
      Started S ok s ops ⟨S.reset w.st, w.threads.map fun _ => ⟨none, []⟩⟩

/-- Every thread has its operation. -/
theorem Started.length {ok : List Op → Pool σ ε ι ρ → Move Op ε → Prop} {s : σ} {ops : List Op}
    (h : Started S ok s ops w) : ops.length = w.threads.length := by
  induction h with
  | start => rfl
  | spawn o _ _ ih => simp [ih]
  | run i e _ _ hm ih =>
    obtain ⟨t, s', t', -, -, rfl⟩ := next_run hm
    simp [ih]
  | stop i _ _ ih | crash _ _ ih => simp [ih]

/-- At the place `i` the thread `t` runs the operation `o`. -/
def At (ops : List Op) (w : Pool σ ε ι ρ) (i : ℕ) (o : Op) (t : Thread σ ε ι ρ) : Prop :=
  ops[i]? = some o ∧ w.threads[i]? = some t

section At

variable {ops : List Op} {i j : ℕ} {o o' : Op} {t t' u : Thread σ ε ι ρ} {s' : σ}

omit [DecidableEq ι] in
theorem At.unique (h : At ops w i o t) (h' : At ops w i o' u) : o = o' ∧ t = u :=
  ⟨Option.some.inj (h.1.symm.trans h'.1), Option.some.inj (h.2.symm.trans h'.2)⟩

omit [DecidableEq ι] in
theorem At.set (h : At ops w i o t) : At ops ⟨s', w.threads.set i t'⟩ i o t' :=
  ⟨h.1, List.getElem?_set_self (List.getElem?_eq_some_iff.1 h.2).1⟩

omit [DecidableEq ι] in
theorem At.set_ne (hne : j ≠ i) : At ops ⟨s', w.threads.set i t'⟩ j o u ↔ At ops w j o u := by
  unfold At
  rw [List.getElem?_set_ne hne.symm]

omit [DecidableEq ι] in
/-- The thread that was started last, and the others. -/
theorem At.append (hlen : ops.length = w.threads.length) (h : At (ops ++ [o']) ⟨s', w.threads ++ [t']⟩ j o t) :
    j = w.threads.length ∧ o = o' ∧ t = t' ∨ At ops w j o t := by
  obtain ⟨ho, ht⟩ := h
  by_cases hlt : j < w.threads.length
  · exact .inr ⟨(List.getElem?_append_left (hlen ▸ hlt)).symm.trans ho, (List.getElem?_append_left hlt).symm.trans ht⟩
  · have hj := (List.getElem?_eq_some_iff.1 ho).1
    obtain rfl : j = w.threads.length := by simp at hj; omega
    rw [← hlen] at ho
    exact .inl ⟨rfl, by simpa using ho.symm, by simpa using ht.symm⟩

end At

/-- A step is a step of the thread of some operation. -/
theorem Started.next_run {ok : List Op → Pool σ ε ι ρ → Move Op ε → Prop} {s : σ} {ops : List Op} {i : ℕ}
    {w' : Pool σ ε ι ρ} (h : Started S ok s ops w) (hm : w.next S (.run i e) = some w') :
    ∃ o t s' t', At ops w i o t ∧ stepThread w.free e w.st t = some (s', t') ∧ w' = ⟨s', w.threads.set i t'⟩ := by
  obtain ⟨t, s', t', hi, hst, rfl⟩ := Pool.next_run hm
  have hlt := (List.getElem?_eq_some_iff.1 hi).1
  exact ⟨_, t, s', t', ⟨List.getElem?_eq_getElem (h.length ▸ hlt), hi⟩, hst, rfl⟩

/-- A thread that is done takes no step. -/
theorem not_done_of_step {s : σ} {t : Thread σ ε ι ρ} {x : σ × Thread σ ε ι ρ}
    (h : stepThread free e s t = some x) : ¬ t.done := by
  rintro (hp | hp)
  · unfold stepThread at h; rw [hp] at h; cases h
  · obtain ⟨a, ha⟩ := Thread.returned_iff.1 hp
    unfold stepThread at h; rw [ha] at h; cases h

/-- One step of a thread that nothing runs beside. -/
theorem alone_stepThread {s s' : σ} {t t' : Thread σ ε ι ρ} {p : Prog σ ε ι ρ} {Q : ρ → σ → Prop}
    (hrefl : ∀ s, G s s) (hp : t.prog = some p) (halone : Alone okε G p Q s) (he : okε e)
    (h : stepThread free e s t = some (s', t')) : G s s' ∧ ∃ p', t'.prog = some p' ∧ Alone okε G p' Q s' := by
  rcases stepThread_cases h with ⟨β, f, k, v, hk, hf, rfl⟩ | ⟨i, k, hk, -, rfl, rfl⟩ | ⟨i, k, hk, rfl, rfl⟩
  all_goals cases hp.symm.trans hk
  · exact ⟨(halone e v s' he hf).1, k v, rfl, (halone e v s' he hf).2⟩
  · exact ⟨hrefl _, k, rfl, halone⟩
  · exact ⟨hrefl _, k, rfl, halone⟩

/-- One step of a thread whose steps are known in every state. -/
theorem steps_stepThread {s s' : σ} {t t' : Thread σ ε ι ρ} {p : Prog σ ε ι ρ} {Q : ρ → Prop}
    (hrefl : ∀ s, G s s) (hp : t.prog = some p) (hsteps : Steps G p Q)
    (h : stepThread free e s t = some (s', t')) : G s s' ∧ ∃ p', t'.prog = some p' ∧ Steps G p' Q := by
  rcases stepThread_cases h with ⟨β, f, k, v, hk, hf, rfl⟩ | ⟨i, k, hk, -, rfl, rfl⟩ | ⟨i, k, hk, rfl, rfl⟩
  all_goals cases hp.symm.trans hk
  · exact ⟨(hsteps e s v s' hf).1, k v, rfl, (hsteps e s v s' hf).2⟩
  · exact ⟨hrefl _, k, rfl, hsteps⟩
  · exact ⟨hrefl _, k, rfl, hsteps⟩

end Pool

end Conc
