import QssStorage.Conc.Steps

/-!
# Programs that wait, and programs that are stopped

A step that waits for something has no outcome until it is there. `Proceeds p Q s` says that `p`,
run alone from `s`, never waits for good: whatever its steps brought so far, some answer of the
environment lets it take the next one, until it returns.

`upTo n p` is `p` stopped before its step `n`, if it has that many.

* `Steps.upTo`, `Ends.upTo`: what is stopped has done nothing else.
-/

namespace Conc.Prog

variable {σ ε ι α β : Type} {ok : ε → Prop} {G : σ → σ → Prop}

/-- Run alone from `s`, `p` can go on until it returns, and `Q` holds where it does. -/
def Proceeds : Prog σ ε ι α → (α → σ → Prop) → σ → Prop
  | ret a, Q, s => Q a s
  | act f k, Q, s => (∃ e, (f e s).isSome) ∧ ∀ e v s', f e s = some (v, s') → Proceeds (k v) Q s'
  | acquire _ k, Q, s => Proceeds k Q s
  | release _ k, Q, s => Proceeds k Q s

theorem proceeds_bind {q : α → Prog σ ε ι β} {Q : β → σ → Prop} : ∀ {p : Prog σ ε ι α} {s : σ},
    Proceeds p (fun a => Proceeds (q a) Q) s → Proceeds (p.bind q) Q s := by
  intro p
  induction p with
  | ret a => exact id
  | act f k ih => exact fun h => ⟨h.1, fun e v s' hf => ih v (h.2 e v s' hf)⟩
  | acquire i k ih | release i k ih => exact ih

theorem Proceeds.mono {Q Q' : α → σ → Prop} (hQ : ∀ a s, Q a s → Q' a s) : ∀ {p : Prog σ ε ι α} {s : σ},
    Proceeds p Q s → Proceeds p Q' s := by
  intro p
  induction p with
  | ret a => exact hQ a _
  | act f k ih => exact fun h => ⟨h.1, fun e v s' hf => ih v (h.2 e v s' hf)⟩
  | acquire i k ih | release i k ih => exact ih

/-- A program that never waits. -/
theorem Ends.proceeds (e0 : ε) (hok : ∀ e, ok e) {Q : α → σ → Prop} : ∀ {p : Prog σ ε ι α} {s : σ},
    Ends ok p Q s → Proceeds p Q s := by
  intro p
  induction p with
  | ret a => exact id
  | act f k ih =>
    intro s h
    refine ⟨?_, fun e v s' hf => ?_⟩
    · obtain ⟨v, s', hf, -⟩ := h e0 (hok e0)
      exact ⟨e0, by rw [hf]; rfl⟩
    · obtain ⟨v', s'', hf', hrest⟩ := h e (hok e)
      cases hf.symm.trans hf'
      exact ih v hrest
  | acquire i k ih | release i k ih => exact ih

theorem Steps.and {G' : σ → σ → Prop} {Q Q' : α → Prop} : ∀ {p : Prog σ ε ι α}, Steps G p Q → Steps G' p Q' →
    Steps (fun s s' => G s s' ∧ G' s s') p fun a => Q a ∧ Q' a := by
  intro p
  induction p with
  | ret a => exact And.intro
  | act f k ih =>
    exact fun h h' e s v s' hf => ⟨⟨(h e s v s' hf).1, (h' e s v s' hf).1⟩, ih v (h e s v s' hf).2 (h' e s v s' hf).2⟩
  | acquire i k ih | release i k ih => exact ih

/-! ## Stopped on the way -/

/-- The first `n` steps of `p`, and what it returns if they are enough. -/
def upTo : ℕ → Prog σ ε ι α → Prog σ ε ι (Option α)
  | _, ret a => ret (some a)
  | 0, act _ _ => ret none
  | n + 1, act f k => act f fun v => upTo n (k v)
  | n, acquire i k => acquire i (upTo n k)
  | n, release i k => release i (upTo n k)

theorem Steps.upTo {Q : α → Prop} : ∀ {p : Prog σ ε ι α} {n : ℕ}, Steps G p Q →
    Steps G (p.upTo n) fun r => ∀ a, r = some a → Q a := by
  intro p
  induction p with
  | ret a =>
    intro n h b hb
    cases hb
    exact h
  | act f k ih =>
    intro n h
    cases n with
    | zero => exact nofun
    | succ n => exact fun e s v s' hf => ⟨(h e s v s' hf).1, ih v (h e s v s' hf).2⟩
  | acquire i k ih | release i k ih => exact ih

theorem Ends.upTo {Q : α → σ → Prop} : ∀ {p : Prog σ ε ι α} {n : ℕ} {s : σ}, Ends ok p Q s →
    Ends ok (p.upTo n) (fun _ _ => True) s := by
  intro p
  induction p with
  | ret a => exact fun _ => trivial
  | act f k ih =>
    intro n s h
    cases n with
    | zero => exact trivial
    | succ n =>
      intro e he
      obtain ⟨v, s', hf, hrest⟩ := h e he
      exact ⟨v, s', hf, ih v hrest⟩
  | acquire i k ih | release i k ih => exact ih

end Conc.Prog
