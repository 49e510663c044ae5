import QssStorage.Conc.Steps

/-!
# Runs of one program among others

A program that runs among others takes turns with them: between two of its own moves the
others may do whatever a relation `R` allows, and every turn of theirs carries a label. A lock is
taken whoever holds it, so every schedule of a pool is covered and more.

Beside such a run an account can be kept: a value that each turn changes. What a program does
to the state and to the account is said by `Tallies`.

* `tallies_bind`, `tallies_andThen`, `tallies_step`, `tallies_quiet`: the rules.
-/

namespace Conc

/-- One turn of a run among others. -/
inductive Turn (Λ σ : Type) where
  | own (s s' : σ)
  | other (l : Λ) (s s' : σ)

namespace Prog

variable {Λ σ ε ι α β γ : Type} (R : Λ → σ → σ → Prop)
variable {J : σ → γ → Prop} {p : Prog σ ε ι α} {Q : α → σ → γ → Prop} {s' : σ} {a : α}
variable {q : α → Prog σ ε ι β} {tr : List (Turn Λ σ)} {G : σ → σ → Prop}

/-- The others get from `s` to `s'` by the turns `tr`. -/
def Others : σ → List (Turn Λ σ) → σ → Prop
  | s, [], s' => s' = s
  | _, .own _ _ :: _, _ => False
  | s, .other l s0 s1 :: tr, s' => s0 = s ∧ R l s s1 ∧ Others s1 tr s'

/-- `p`, started in `s` among others, returns `a` in `s'` after the turns `tr`. -/
def Among : Prog σ ε ι α → σ → List (Turn Λ σ) → α → σ → Prop
  | ret b, s, tr, a, s' => a = b ∧ Others R s tr s'
  | act f k, s, tr, a, s' => ∃ tr0 s0 e v s1 tr1, Others R s tr0 s0 ∧ f e s0 = some (v, s1) ∧
      tr = tr0 ++ .own s0 s1 :: tr1 ∧ Among (k v) s1 tr1 a s'
  | acquire _ k, s, tr, a, s' => ∃ tr0 s0 tr1, Others R s tr0 s0 ∧ tr = tr0 ++ .own s0 s0 :: tr1 ∧ Among k s0 tr1 a s'
  | release _ k, s, tr, a, s' => ∃ tr0 s0 tr1, Others R s tr0 s0 ∧ tr = tr0 ++ .own s0 s0 :: tr1 ∧ Among k s0 tr1 a s'

variable {R}

theorem among_bind {b : β} : ∀ {p : Prog σ ε ι α} {s : σ} {tr : List (Turn Λ σ)}, Among R (p.bind q) s tr b s' →
      ∃ tr1 tr2 a s1, tr = tr1 ++ tr2 ∧ Among R p s tr1 a s1 ∧ Among R (q a) s1 tr2 b s' := by
  intro p
  induction p with
  | ret a => exact fun h => ⟨[], _, a, _, rfl, ⟨rfl, rfl⟩, h⟩
  | act f k ih =>
    rintro s tr ⟨tr0, s0, e, v, s1, tr1, ho, hf, rfl, h⟩
    obtain ⟨tr2, tr3, a, s2, rfl, hp, hq⟩ := ih v h
    exact ⟨tr0 ++ .own s0 s1 :: tr2, tr3, a, s2, by simp, ⟨tr0, s0, e, v, s1, tr2, ho, hf, rfl, hp⟩, hq⟩
  | acquire i k ih | release i k ih =>
    rintro s tr ⟨tr0, s0, tr1, ho, rfl, h⟩
    obtain ⟨tr2, tr3, a, s2, rfl, hp, hq⟩ := ih h
    exact ⟨tr0 ++ .own s0 s0 :: tr2, tr3, a, s2, by simp, ⟨tr0, s0, tr2, ho, rfl, hp⟩, hq⟩

/-- A turn of the others comes first. -/
theorem Among.after {l : Λ} {s s1 s' : σ} (hR : R l s s1) (h : Among R p s1 tr a s') :
    Among R p s (.other l s s1 :: tr) a s' := by
  cases p with
  | ret b => exact ⟨h.1, rfl, hR, h.2⟩
  | act f k =>
    obtain ⟨tr0, s0, e, v, s2, tr1, ho, hf, rfl, hk⟩ := h
    exact ⟨.other l s s1 :: tr0, s0, e, v, s2, tr1, ⟨rfl, hR, ho⟩, hf, rfl, hk⟩
  | acquire i k | release i k =>
    obtain ⟨tr0, s0, tr1, ho, rfl, hk⟩ := h
    exact ⟨.other l s s1 :: tr0, s0, tr1, ⟨rfl, hR, ho⟩, rfl, hk⟩

/-! ## Tallies -/

variable (turn : γ → Turn Λ σ → γ)

/-- The turns of the others keep `J`. -/
def Stable (R : Λ → σ → σ → Prop) (J : σ → γ → Prop) : Prop :=
  ∀ l s s' g, R l s s' → J s g → J s' (turn g (.other l s s'))

variable {turn}

theorem Stable.imp (hJ : Stable turn R J) (P : Prop) : Stable turn R fun s g => P → J s g :=
  fun l s s' g hR h hP => hJ l s s' g hR (h hP)

theorem Stable.and {J J' : σ → γ → Prop} (hJ : Stable turn R J) (hJ' : Stable turn R J') :
    Stable turn R fun s g => J s g ∧ J' s g :=
  fun l s s' g hR h => ⟨hJ l s s' g hR h.1, hJ' l s s' g hR h.2⟩

theorem Stable.const (P : Prop) : Stable turn R fun _ _ => P := fun _ _ _ _ _ h => h

theorem Stable.others (hJ : Stable turn R J) : ∀ {tr : List (Turn Λ σ)} {s s' : σ} {g : γ},
    Others R s tr s' → J s g → J s' (tr.foldl turn g) := by
  intro tr
  induction tr with
  | nil => rintro s s' g rfl h; exact h
  | cons t tr ih =>
    intro s s' g ho h
    cases t with
    | own _ _ => exact ho.elim
    | other l s0 s1 =>
      obtain ⟨rfl, hR, ho⟩ := ho
      exact ih ho (hJ l _ _ g hR h)

variable (turn R) in
/-- A run of `p` from a state and an account in `J` ends in `Q`. -/
def Tallies (J : σ → γ → Prop) (p : Prog σ ε ι α) (Q : α → σ → γ → Prop) : Prop :=
  ∀ s tr a s', Among R p s tr a s' → ∀ g, J s g → Q a s' (tr.foldl turn g)

theorem Tallies.mono {Q Q' : α → σ → γ → Prop} (h : Tallies R turn J p Q) (hQ : ∀ a s g, Q a s g → Q' a s g) :
    Tallies R turn J p Q' :=
  fun s tr a s' hrun g hg => hQ _ _ _ (h s tr a s' hrun g hg)

theorem Tallies.weaken {J J' : σ → γ → Prop} (h : Tallies R turn J p Q) (hJ : ∀ s g, J' s g → J s g) :
    Tallies R turn J' p Q :=
  fun s tr a s' hrun g hg => h s tr a s' hrun g (hJ s g hg)

/-- What does not depend on the state. -/
theorem tallies_pure {P : Prop} (h : P → Tallies R turn J p Q) : Tallies R turn (fun s g => P ∧ J s g) p Q :=
  fun s tr a s' hrun g hg => h hg.1 s tr a s' hrun g hg.2

theorem tallies_ret (hJ : Stable turn R J) (h : ∀ s g, J s g → Q a s g) : Tallies R turn J (ret a : Prog σ ε ι α) Q := by
  rintro s tr _ s' ⟨rfl, ho⟩ g hg
  exact h _ _ (hJ.others ho hg)

theorem tallies_bind {K : α → σ → γ → Prop} {Q : β → σ → γ → Prop} (hp : Tallies R turn J p K)
    (hq : ∀ a, Tallies R turn (K a) (q a) Q) :
    Tallies R turn J (p.bind q) Q := by
  intro s tr b s' hrun g hg
  obtain ⟨tr1, tr2, a, s1, rfl, h1, h2⟩ := among_bind hrun
  rw [List.foldl_append]
  exact hq a s1 tr2 b s' h2 _ (hp s tr1 a s1 h1 g hg)

/-- An error ends the composition, a value is handed on. -/
theorem tallies_andThen {ξ : Type} {p : Prog σ ε ι (Except ξ α)} {q : α → Prog σ ε ι (Except ξ β)}
    {K : Except ξ α → σ → γ → Prop} {Q : Except ξ β → σ → γ → Prop} (hp : Tallies R turn J p K)
    (herr : ∀ e, Stable turn R (K (.error e))) (hQ : ∀ e s g, K (.error e) s g → Q (.error e) s g)
    (hq : ∀ a, Tallies R turn (K (.ok a)) (q a) Q) : Tallies R turn J (p.andThen q) Q := by
  refine tallies_bind hp fun r => ?_
  cases r with
  | ok a => exact hq a
  | error e => exact tallies_ret (herr e) (hQ e)

/-- One step. -/
theorem tallies_step (hJ : Stable turn R J) {f : ε → σ → Option (α × σ)} (hQ : ∀ a, Stable turn R (Q a))
    (h : ∀ e s g a s', f e s = some (a, s') → J s g → Q a s' (turn g (.own s s'))) :
    Tallies R turn J (step f : Prog σ ε ι α) Q := by
  rintro s tr a s' ⟨tr0, s0, e, v, s1, tr1, ho, hf, rfl, rfl, ho'⟩ g hg
  rw [List.foldl_append, List.foldl_cons]
  exact (hQ _).others ho' (h e s0 _ _ s1 hf (hJ.others ho hg))

/-- A program whose steps keep `J`. -/
theorem tallies_quiet (hJ : Stable turn R J) {K : α → Prop}
    (hown : ∀ s s' g, G s s' → J s g → J s' (turn g (.own s s'))) (hrefl : ∀ s, G s s) :
    ∀ {p : Prog σ ε ι α}, Steps G p K → Tallies R turn J p fun a s g => K a ∧ J s g := by
  intro p
  induction p with
  | ret b =>
    rintro hK s tr _ s' ⟨rfl, ho⟩ g hg
    exact ⟨hK, hJ.others ho hg⟩
  | act f k ih =>
    rintro hsteps s tr a s' ⟨tr0, s0, e, v, s1, tr1, ho, hf, rfl, h⟩ g hg
    obtain ⟨hG, hrest⟩ := hsteps e s0 v s1 hf
    rw [List.foldl_append, List.foldl_cons]
    exact ih v hrest s1 tr1 a s' h _ (hown _ _ _ hG (hJ.others ho hg))
  | acquire i k ih | release i k ih =>
    rintro hsteps s tr a s' ⟨tr0, s0, tr1, ho, rfl, h⟩ g hg
    rw [List.foldl_append, List.foldl_cons]
    exact ih hsteps s0 tr1 a s' h _ (hown _ _ _ (hrefl s0) (hJ.others ho hg))

/-- What a program returns, whatever is done in between. -/
theorem Among.returns {Q : α → Prop} {s : σ} (h : Among R p s tr a s') (hp : Steps G p Q) : Q a := by
  have hreturns : Tallies R (fun (g : Unit) _ => g) (fun _ _ => True) p fun a _ _ => Q a ∧ True :=
    tallies_quiet (fun _ _ _ _ _ _ => trivial) (fun _ _ _ _ _ => trivial) (fun _ => trivial)
      (hp.mono (fun _ _ _ => trivial) fun _ h => h)
  exact (hreturns s tr a s' h () trivial).1

/-- The run that nobody else takes part in. -/
theorem among_of_eval {e : ε} : ∀ {p : Prog σ ε ι α} {s : σ}, p.eval e s = some (a, s') →
    ∃ tr, Among R p s tr a s' ∧ ∀ t ∈ tr, ∃ s1 s2, t = .own s1 s2 := by
  intro p
  induction p with
  | ret b => intro s h; cases h; exact ⟨[], ⟨rfl, rfl⟩, fun t ht => absurd ht List.not_mem_nil⟩
  | act f k ih =>
    intro s h
    unfold eval at h
    split at h
    · rename_i v s1 hf
      obtain ⟨tr, hrun, hown⟩ := ih v h
      refine ⟨.own s s1 :: tr, ⟨[], s, e, v, s1, tr, rfl, hf, rfl, hrun⟩, ?_⟩
      exact List.forall_mem_cons.2 ⟨⟨s, s1, rfl⟩, hown⟩
    · cases h
  | acquire i k ih | release i k ih =>
    intro s h
    obtain ⟨tr, hrun, hown⟩ := ih h
    exact ⟨.own s s :: tr, ⟨[], s, tr, rfl, rfl, hrun⟩, List.forall_mem_cons.2 ⟨⟨s, s, rfl⟩, hown⟩⟩

end Prog

end Conc
