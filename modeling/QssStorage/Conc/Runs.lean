import QssStorage.Conc.Prog

/-!
# Runs of one program

What a program does when nothing else runs beside it, the environment answering each step
as it likes within `ok`.

* `Ends`: a program that comes to its end from a state, whatever it is answered on the way;
  `Unblocked`: from every state.
-/

namespace Conc.Prog

variable {σ ε ι α β : Type} {ok : ε → Prop}
variable {ξ : Type} {q : α → Prog σ ε ι β} {f : ε → σ → Option (α × σ)} {Q : α → σ → Prop}
  {p : Prog σ ε ι (Except ξ α)}

/-- `p`, run alone from `s`, can return `a` in state `s'`. -/
def Runs (ok : ε → Prop) : Prog σ ε ι α → σ → α → σ → Prop
  | ret b, s, a, s' => a = b ∧ s' = s
  | act f k, s, a, s' => ∃ e v s1, ok e ∧ f e s = some (v, s1) ∧ Runs ok (k v) s1 a s'
  | acquire _ k, s, a, s' => Runs ok k s a s'
  | release _ k, s, a, s' => Runs ok k s a s'

@[simp] theorem runs_ret {a b : α} {s s' : σ} : Runs ok (ret b : Prog σ ε ι α) s a s' ↔ a = b ∧ s' = s := Iff.rfl

theorem runs_step {a : α} {s s' : σ} : Runs ok (step f : Prog σ ε ι α) s a s' ↔ ∃ e, ok e ∧ f e s = some (a, s') := by
  constructor
  · rintro ⟨e, v, s1, he, hf, rfl, rfl⟩
    exact ⟨e, he, hf⟩
  · rintro ⟨e, he, hf⟩
    exact ⟨e, a, s', he, hf, rfl, rfl⟩

/-- A run of a composition is a run of the first part and one of the second. -/
theorem runs_bind {b : β} {s' : σ} : ∀ {p : Prog σ ε ι α} {s : σ},
    Runs ok (p.bind q) s b s' ↔ ∃ a s1, Runs ok p s a s1 ∧ Runs ok (q a) s1 b s' := by
  intro p
  induction p with
  | ret a =>
    intro s
    constructor
    · exact fun h => ⟨a, s, ⟨rfl, rfl⟩, h⟩
    · rintro ⟨_, _, ⟨rfl, rfl⟩, h⟩; exact h
  | act f k ih =>
    intro s
    constructor
    · rintro ⟨e, v, s1, he, hf, h⟩
      obtain ⟨a, s2, hk, hq⟩ := (ih v).1 h
      exact ⟨a, s2, ⟨e, v, s1, he, hf, hk⟩, hq⟩
    · rintro ⟨a, s2, ⟨e, v, s1, he, hf, hk⟩, hq⟩
      exact ⟨e, v, s1, he, hf, (ih v).2 ⟨a, s2, hk, hq⟩⟩
  | acquire i k ih | release i k ih => intro s; exact ih

/-- A sequence whose first part succeeds is a run of each part. -/
theorem runs_andThen {q : α → Prog σ ε ι (Except ξ β)} {r : Except ξ β} {s s' : σ} {P : α → σ → Prop}
    (hp : ∀ {v s1}, Runs ok p s v s1 → ∃ a, v = .ok a ∧ P a s1) (h : Runs ok (p.andThen q) s r s') :
    ∃ a s1, P a s1 ∧ Runs ok (q a) s1 r s' := by
  obtain ⟨v, s1, hv, hq⟩ := runs_bind.1 h
  obtain ⟨a, rfl, ha⟩ := hp hv
  exact ⟨a, s1, ha, hq⟩

theorem Runs.mono {ok' : ε → Prop} (hok : ∀ e, ok e → ok' e) {a : α} {s' : σ} : ∀ {p : Prog σ ε ι α} {s : σ},
    Runs ok p s a s' → Runs ok' p s a s' := by
  intro p
  induction p with
  | ret b => exact id
  | act f k ih =>
    rintro s ⟨e, v, s1, he, hf, h⟩
    exact ⟨e, v, s1, hok e he, hf, ih v h⟩
  | acquire i k ih | release i k ih => exact ih

@[simp] theorem runs_lockAll {is : List ι} {a : Unit} {s s' : σ} :
    Runs ok (lockAll is : Prog σ ε ι Unit) s a s' ↔ s' = s := by
  induction is with
  | nil => simp [lockAll]
  | cons i is ih => exact ih

@[simp] theorem runs_unlockAll {is : List ι} {a : Unit} {s s' : σ} :
    Runs ok (unlockAll is : Prog σ ε ι Unit) s a s' ↔ s' = s := by
  induction is with
  | nil => simp [unlockAll]
  | cons i is ih => exact ih

/-- An evaluation is a run. -/
theorem eval_runs {e : ε} (he : ok e) {a : α} {s' : σ} : ∀ {p : Prog σ ε ι α} {s : σ},
    p.eval e s = some (a, s') → Runs ok p s a s' := by
  intro p
  induction p with
  | ret b => intro s h; cases h; exact ⟨rfl, rfl⟩
  | act f k ih =>
    intro s h
    unfold eval at h
    split at h
    · rename_i v s1 hf
      exact ⟨e, v, s1, he, hf, ih v h⟩
    · cases h
  | acquire i k ih | release i k ih => intro s h; exact ih h

theorem eval_bind (e : ε) (q : α → Prog σ ε ι β) : ∀ (p : Prog σ ε ι α) (s : σ),
    (p.bind q).eval e s = (p.eval e s).bind fun r => (q r.1).eval e r.2 := by
  intro p
  induction p with
  | ret a => intro s; rfl
  | act f k ih =>
    intro s
    simp only [act_bind, eval]
    cases f e s with
    | none => rfl
    | some vs => exact ih vs.1 vs.2
  | acquire i k ih | release i k ih => intro s; exact ih s

/-! ## Coming to an end -/

/-- Run alone from `s`, `p` never blocks as long as the environment answers within `ok`, and
`Q` holds where it ends. -/
def Ends (ok : ε → Prop) : Prog σ ε ι α → (α → σ → Prop) → σ → Prop
  | ret a, Q, s => Q a s
  | act f k, Q, s => ∀ e, ok e → ∃ v s', f e s = some (v, s') ∧ Ends ok (k v) Q s'
  | acquire _ k, Q, s => Ends ok k Q s
  | release _ k, Q, s => Ends ok k Q s

theorem ends_step {s : σ} (h : ∀ e, ok e → ∃ v s', f e s = some (v, s') ∧ Q v s') : Ends ok (step f : Prog σ ε ι α) Q s := h

theorem Ends.mono {Q Q' : α → σ → Prop} (hQ : ∀ a s, Q a s → Q' a s) : ∀ {p : Prog σ ε ι α} {s : σ},
    Ends ok p Q s → Ends ok p Q' s := by
  intro p
  induction p with
  | ret a => exact hQ a _
  | act f k ih =>
    intro s h e he
    obtain ⟨v, s', hf, hk⟩ := h e he
    exact ⟨v, s', hf, ih v hk⟩
  | acquire i k ih | release i k ih => exact ih

theorem ends_bind_iff {Q : β → σ → Prop} : ∀ {p : Prog σ ε ι α} {s : σ},
    Ends ok (p.bind q) Q s ↔ Ends ok p (fun a => Ends ok (q a) Q) s := by
  intro p
  induction p with
  | ret a => exact Iff.rfl
  | act f k ih =>
    intro s
    constructor
    · intro h e he
      obtain ⟨v, s', hf, hk⟩ := h e he
      exact ⟨v, s', hf, (ih v).1 hk⟩
    · intro h e he
      obtain ⟨v, s', hf, hk⟩ := h e he
      exact ⟨v, s', hf, (ih v).2 hk⟩
  | acquire i k ih | release i k ih => exact ih

theorem ends_bind {Q : β → σ → Prop} {p : Prog σ ε ι α} {s : σ} (h : Ends ok p (fun a => Ends ok (q a) Q) s) :
    Ends ok (p.bind q) Q s :=
  ends_bind_iff.2 h

/-- A first part that ends well hands its value on. -/
theorem ends_andThen {q : α → Prog σ ε ι (Except ξ β)} {Q : Except ξ β → σ → Prop} {s : σ}
    (h : Ends ok p (fun r s => ∃ a, r = .ok a ∧ Ends ok (q a) Q s) s) :
    Ends ok (p.andThen q) Q s := by
  refine ends_bind (h.mono fun r s hr => ?_)
  obtain ⟨a, rfl, ha⟩ := hr
  exact ha

/-- What ends can be evaluated. -/
theorem Ends.eval {e : ε} (he : ok e) : ∀ {p : Prog σ ε ι α} {s : σ}, Ends ok p Q s →
    ∃ a s', p.eval e s = some (a, s') ∧ Q a s' := by
  intro p
  induction p with
  | ret a => exact fun h => ⟨a, _, rfl, h⟩
  | act f k ih =>
    intro s h
    obtain ⟨v, s', hf, hk⟩ := h e he
    obtain ⟨a, s'', hev, hQ⟩ := ih v hk
    exact ⟨a, s'', by simp only [Prog.eval, hf]; exact hev, hQ⟩
  | acquire i k ih | release i k ih => exact ih

/-! ## Coming to an end from every state -/

/-- The program comes to its end from every state. -/
def Unblocked (ok : ε → Prop) (p : Prog σ ε ι α) : Prop := ∀ s, Ends ok p (fun _ _ => True) s

theorem Unblocked.ret (a : α) : Unblocked ok (ret a : Prog σ ε ι α) := fun _ => trivial

theorem Unblocked.step (h : ∀ e s, (f e s).isSome) : Unblocked ok (step f : Prog σ ε ι α) := by
  intro s e _
  obtain ⟨⟨v, s'⟩, hf⟩ := Option.isSome_iff_exists.1 (h e s)
  exact ⟨v, s', hf, trivial⟩

theorem Unblocked.bind {p : Prog σ ε ι α} (hp : Unblocked ok p) (hq : ∀ a, Unblocked ok (q a)) : Unblocked ok (p.bind q) :=
  fun s => ends_bind ((hp s).mono fun a s' _ => hq a s')

theorem Unblocked.andThen {q : α → Prog σ ε ι (Except ξ β)} (hp : Unblocked ok p) (hq : ∀ a, Unblocked ok (q a)) :
    Unblocked ok (p.andThen q) := by
  refine hp.bind fun r => ?_
  cases r with
  | ok a => exact hq a
  | error e => exact .ret _

theorem Unblocked.lockAll (is : List ι) : Unblocked ok (lockAll is : Prog σ ε ι Unit) := by
  induction is with
  | nil => exact .ret _
  | cons i is ih => exact ih

theorem Unblocked.unlockAll (is : List ι) : Unblocked ok (unlockAll is : Prog σ ε ι Unit) := by
  induction is with
  | nil => exact .ret _
  | cons i is ih => exact ih

end Conc.Prog
