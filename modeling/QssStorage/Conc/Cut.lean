import QssStorage.Conc.Runs

/-!
# Programs that are cut short

`cut e p n s` is the state a program run alone from `s` leaves when it is stopped after `n`
of its steps; `cost e p s` is the number of steps it takes to its end.

* `Along`: what holds of every state on the way, wherever the cut falls.
-/

namespace Conc.Prog

variable {σ ε ι α β : Type} {e : ε} {s s' : σ}
variable {q : α → Prog σ ε ι β} {P : σ → Prop} {a : α}

/-- The state after the first `n` steps of `p`, run alone. -/
def cut (e : ε) : Prog σ ε ι α → ℕ → σ → σ
  | ret _, _, s => s
  | act _ _, 0, s => s
  | act f k, n + 1, s =>
    match f e s with
    | some (v, s') => (k v).cut e n s'
    | none => s
  | acquire _ k, n, s => k.cut e n s
  | release _ k, n, s => k.cut e n s

/-- The number of steps `p` takes, run alone. -/
def cost (e : ε) : Prog σ ε ι α → σ → ℕ
  | ret _, _ => 0
  | act f k, s =>
    match f e s with
    | some (v, s') => (k v).cost e s' + 1
    | none => 0
  | acquire _ k, s => k.cost e s
  | release _ k, s => k.cost e s

@[simp] theorem cut_zero (p : Prog σ ε ι α) : p.cut e 0 s = s := by
  induction p with
  | ret a | act f k ih => rfl
  | acquire i k ih | release i k ih => exact ih

theorem cut_bind_of_le : ∀ {p : Prog σ ε ι α} {n : ℕ} {s : σ}, n ≤ p.cost e s → (p.bind q).cut e n s = p.cut e n s := by
  intro p
  induction p with
  | ret a =>
    intro n s hn
    have hzero : n = 0 := Nat.le_zero.1 hn
    rw [hzero, cut_zero, cut_zero]
  | act f k ih =>
    intro n s hn
    cases n with
    | zero => rfl
    | succ n =>
      simp only [act_bind, cut]
      simp only [cost] at hn
      cases hf : f e s with
      | none => rfl
      | some r =>
        rw [hf] at hn
        exact ih r.1 (Nat.le_of_succ_le_succ hn)
  | acquire i k ih | release i k ih => exact ih

theorem cut_bind_add : ∀ {p : Prog σ ε ι α} {s : σ}, p.eval e s = some (a, s') → ∀ n,
      (p.bind q).cut e (p.cost e s + n) s = (q a).cut e n s' := by
  intro p
  induction p with
  | ret b =>
    intro s h n
    cases h
    simp [cost]
  | act f k ih =>
    intro s h n
    simp only [eval] at h
    cases hf : f e s with
    | none => simp [hf] at h
    | some r =>
      rw [hf] at h
      have hcost : (act f k).cost e s + n = (k r.1).cost e r.2 + n + 1 := by
        simp only [cost, hf]
        omega
      rw [hcost, act_bind, cut, hf]
      exact ih r.1 h n
  | acquire i k ih | release i k ih => exact ih

theorem cost_bind : ∀ {p : Prog σ ε ι α} {s : σ}, p.eval e s = some (a, s') →
    (p.bind q).cost e s = p.cost e s + (q a).cost e s' := by
  intro p
  induction p with
  | ret b =>
    intro s h
    cases h
    simp [cost]
  | act f k ih =>
    intro s h
    simp only [eval] at h
    cases hf : f e s with
    | none => simp [hf] at h
    | some r =>
      rw [hf] at h
      have hrest := ih r.1 h
      simp only [act_bind, cost, hf, hrest]
      omega
  | acquire i k ih | release i k ih => exact ih

/-! ## Every state on the way -/

/-- `P` holds of `s` and of every state that `p`, run alone from there, goes through. -/
def Along (e : ε) (P : σ → Prop) : Prog σ ε ι α → σ → Prop
  | ret _, s => P s
  | act f k, s =>
    P s ∧
      match f e s with
      | some (v, s') => (k v).Along e P s'
      | none => True
  | acquire _ k, s => k.Along e P s
  | release _ k, s => k.Along e P s

theorem along_act {γ : Type} {f : ε → σ → Option (γ × σ)} {k : γ → Prog σ ε ι α} :
    (act f k).Along e P s ↔ P s ∧ ∀ v s', f e s = some (v, s') → (k v).Along e P s' := by
  simp only [Along]
  cases f e s with
  | none => simp
  | some r =>
    obtain ⟨v, s'⟩ := r
    simp

theorem Along.cut : ∀ {p : Prog σ ε ι α} {s : σ}, p.Along e P s → ∀ n, P (p.cut e n s) := by
  intro p
  induction p with
  | ret a => exact fun h _ => h
  | act f k ih =>
    intro s h n
    obtain ⟨hs, hrest⟩ := along_act.1 h
    cases n with
    | zero => exact hs
    | succ n =>
      simp only [Prog.cut]
      cases hf : f e s with
      | none => exact hs
      | some r => exact ih r.1 (hrest r.1 r.2 hf) n
  | acquire i k ih | release i k ih => exact ih

theorem Along.mono {P P' : σ → Prop} (hP : ∀ s, P s → P' s) :
    ∀ {p : Prog σ ε ι α} {s : σ}, p.Along e P s → p.Along e P' s := by
  intro p
  induction p with
  | ret a => exact fun {s} h => hP s h
  | act f k ih =>
    intro s h
    obtain ⟨hs, hrest⟩ := along_act.1 h
    exact along_act.2 ⟨hP s hs, fun v s' hf => ih v (hrest v s' hf)⟩
  | acquire i k ih | release i k ih => exact ih

theorem Along.bind : ∀ {p : Prog σ ε ι α} {s : σ}, p.Along e P s →
    (∀ a s', p.eval e s = some (a, s') → (q a).Along e P s') → (p.bind q).Along e P s := by
  intro p
  induction p with
  | ret a => exact fun _ hq => hq a _ rfl
  | act f k ih =>
    intro s h hq
    obtain ⟨hs, hrest⟩ := along_act.1 h
    refine along_act.2 ⟨hs, fun v s' hf => ih v (hrest v s' hf) fun a s'' heval => hq a s'' ?_⟩
    simp only [eval, hf]
    exact heval
  | acquire i k ih | release i k ih => exact ih

/-- Where a program that came to its end was. -/
theorem cut_cost {p : Prog σ ε ι α} (h : p.eval e s = some (a, s')) : p.cut e (p.cost e s) s = s' := by
  have hadd := cut_bind_add (q := fun b => (ret b : Prog σ ε ι α)) h 0
  have hle := cut_bind_of_le (q := fun b => (ret b : Prog σ ε ι α)) (le_refl (p.cost e s))
  rw [Nat.add_zero, hle, cut_zero] at hadd
  exact hadd

end Conc.Prog
