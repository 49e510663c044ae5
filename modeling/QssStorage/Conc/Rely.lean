import QssStorage.Conc.Steps

/-!
# Rely and guarantee

What a thread learns from the shared state stays true only as far as the others let it. A
`Rely` fixes an invariant of the state, a transitive relation `rel` that every move of the
pool keeps, and the moves that are considered. `Safe T p Q s` says that `p`, from `s` on and
whatever the others do in between, takes only steps that keep both, and that `Q` holds of
what it returns for as long as the invariant does.

`Confined J G p Q` is the case of a program that carries nothing of the state along: every step
from a state that meets `J` is a step of `G` into one that meets it.

* `Pool.Reach.safe`: **the invariant holds in every pool reached, and what every thread
  returned still meets its promise.**
-/

namespace Conc

namespace Prog

variable {σ ε ι α β : Type} {J : σ → Prop} {G : σ → σ → Prop}
variable {Q Q' : α → Prop}
variable {ξ : Type} {p : Prog σ ε ι α} {G' : σ → σ → Prop} {ok : ε → Prop} {q : α → Prog σ ε ι (Except ξ β)}
  (is : List ι)

/-- Every step of `p` from a state in `J` is a step of `G` into `J`; what it returns meets `Q`. -/
def Confined (J : σ → Prop) (G : σ → σ → Prop) : Prog σ ε ι α → (α → Prop) → Prop
  | ret a, Q => Q a
  | act f k, Q => ∀ e s v s', J s → f e s = some (v, s') → J s' ∧ G s s' ∧ Confined J G (k v) Q
  | acquire _ k, Q => Confined J G k Q
  | release _ k, Q => Confined J G k Q

theorem Confined.mono (hG : ∀ s s', J s → J s' → G s s' → G' s s') (hQ : ∀ a, Q a → Q' a) :
    ∀ {p : Prog σ ε ι α}, Confined J G p Q → Confined J G' p Q' := by
  intro p
  induction p with
  | ret a => exact hQ a
  | act f k ih =>
    intro h e s v s' hs hf
    obtain ⟨hs', hg, hk⟩ := h e s v s' hs hf
    exact ⟨hs', hG s s' hs hs' hg, ih v hk⟩
  | acquire i k ih | release i k ih => exact ih

theorem Confined.imp (h : Confined J G p Q) (hQ : ∀ a, Q a → Q' a) : Confined J G p Q' := h.mono (fun _ _ _ _ h => h) hQ

theorem confined_step {f : ε → σ → Option (α × σ)} (h : ∀ e s a s', J s → f e s = some (a, s') → J s' ∧ G s s' ∧ Q a) :
    Confined J G (step f : Prog σ ε ι α) Q := h

theorem confined_bind {q : α → Prog σ ε ι β} {Q : β → Prop} :
    ∀ {p : Prog σ ε ι α}, Confined J G p (fun a => Confined J G (q a) Q) → Confined J G (p.bind q) Q := by
  intro p
  induction p with
  | ret a => exact id
  | act f k ih =>
    intro h e s v s' hs hf
    obtain ⟨hs', hg, hk⟩ := h e s v s' hs hf
    exact ⟨hs', hg, ih v hk⟩
  | acquire i k ih | release i k ih => exact ih

/-- An error ends the composition, a value is handed on. -/
theorem confined_andThen {p : Prog σ ε ι (Except ξ α)} {Q : Except ξ β → Prop}
    (h : Confined J G p fun r => (∀ a, r = .ok a → Confined J G (q a) Q) ∧ ∀ e, r = .error e → Q (.error e)) :
    Confined J G (p.andThen q) Q := by
  refine confined_bind (h.imp fun r hr => ?_)
  cases r with
  | ok a => exact hr.1 a rfl
  | error e => exact hr.2 e rfl

theorem confined_lockAll : Confined J G (lockAll is : Prog σ ε ι Unit) fun _ => True := by
  induction is with
  | nil => exact trivial
  | cons i is ih => exact ih

theorem confined_unlockAll : Confined J G (unlockAll is : Prog σ ε ι Unit) fun _ => True := by
  induction is with
  | nil => exact trivial
  | cons i is ih => exact ih

/-- Steps that keep `J`, whatever they find. -/
theorem Confined.of_steps (hJ : ∀ s s', J s → G s s' → J s') : ∀ {p : Prog σ ε ι α}, Steps G p Q → Confined J G p Q := by
  intro p
  induction p with
  | ret a => exact id
  | act f k ih =>
    intro h e s v s' hs hf
    obtain ⟨hg, hk⟩ := h e s v s' hf
    exact ⟨hJ s s' hs hg, hg, ih v hk⟩
  | acquire i k ih | release i k ih => exact ih

/-- What a program does from any state. -/
theorem Confined.steps : ∀ {p : Prog σ ε ι α}, Confined (fun _ => True) G p Q → Steps G p Q := by
  intro p
  induction p with
  | ret a => exact id
  | act f k ih =>
    intro h e s v s' hf
    obtain ⟨-, hg, hk⟩ := h e s v s' trivial hf
    exact ⟨hg, ih v hk⟩
  | acquire i k ih | release i k ih => exact ih

theorem Steps.confined (h : Steps G p Q) (hG : ∀ s s', G s s' → G' s s') : Confined (fun _ => True) G' p Q :=
  (Confined.of_steps (fun _ _ _ _ => trivial) h).mono (fun s s' _ _ => hG s s') fun _ h => h

/-- Nothing is asked for. -/
theorem confined_true (p : Prog σ ε ι α) : Confined (fun _ => True) (fun _ _ => True) p fun _ => True :=
  (steps_any p).confined fun _ _ h => h

/-- A program that only looks keeps everything. -/
theorem Confined.of_looks (hrefl : ∀ s, G s s) (h : Looks p) : Confined J G p fun _ => True :=
  (Confined.of_steps (G := Eq) (fun _ _ hs heq => heq ▸ hs) (h.steps fun _ => rfl)).mono
    (fun s _ _ _ heq => heq ▸ hrefl s) fun _ h => h

/-- Two programs one after the other, nothing being handed over. -/
theorem Confined.seq {q : α → Prog σ ε ι β} {Q : β → Prop} (hp : Confined J G p fun _ => True)
    (hq : ∀ a, Confined J G (q a) Q) : Confined J G (p.bind q) Q := confined_bind (hp.imp fun a _ => hq a)

/-- The value of a program is handed to the next. -/
theorem Confined.thenOk {p : Prog σ ε ι (Except ξ α)} {R : α → Prop} {Q : Except ξ β → Prop}
    (herror : ∀ e, Q (.error e)) (hp : Confined J G p fun r => ∀ a, r = .ok a → R a)
    (hq : ∀ a, R a → Confined J G (q a) Q) : Confined J G (p.andThen q) Q :=
  confined_andThen (hp.imp fun _ hr => ⟨fun a ha => hq a (hr a ha), fun e _ => herror e⟩)

theorem Confined.thenTrue {p : Prog σ ε ι (Except ξ α)} (hp : Confined J G p fun _ => True)
    (hq : ∀ a, Confined J G (q a) fun _ => True) :
    Confined J G (p.andThen q) fun _ => True :=
  confined_andThen (hp.imp fun _ _ => ⟨fun a _ => hq a, fun _ _ => trivial⟩)

theorem Confined.true (h : Confined J G p Q) : Confined J G p fun _ => True := h.imp fun _ _ => trivial

/-- A program that only looks, in fewer states. -/
theorem Confined.of_still {J' : σ → Prop} (hJ : ∀ s, J' s → J s) : ∀ {p : Prog σ ε ι α},
    Steps Eq p Q' → Confined J G p Q → Confined J' G p Q := by
  intro p
  induction p with
  | ret a => exact fun _ h => h
  | act f k ih =>
    intro hstill h e s v s' hs hf
    obtain ⟨rfl, hk⟩ := hstill e s v s' hf
    obtain ⟨-, hg, hk'⟩ := h e s v s (hJ s hs) hf
    exact ⟨hs, hg, ih v hk hk'⟩
  | acquire i k ih | release i k ih => exact ih

/-- What a program does on its way to an end. -/
theorem Ends.and_confined {Q : α → σ → Prop} : ∀ {p : Prog σ ε ι α} {s : σ},
    Ends ok p Q s → Confined J G p Q' → J s → Ends ok p (fun a s => (Q a s ∧ Q' a) ∧ J s) s := by
  intro p
  induction p with
  | ret a => exact fun h h' hs => ⟨⟨h, h'⟩, hs⟩
  | act f k ih =>
    intro s h h' hs e he
    obtain ⟨v, s', hf, hk⟩ := h e he
    obtain ⟨hs', -, hk'⟩ := h' e s v s' hs hf
    exact ⟨v, s', hf, ih v hk hk' hs'⟩
  | acquire i k ih | release i k ih => exact ih

/-- A program that comes to its end has gone there by steps of `G`. -/
theorem Ends.and_steps (hrefl : ∀ s, G s s) (htrans : ∀ s1 s2 s3, G s1 s2 → G s2 s3 → G s1 s3) {Q : α → σ → Prop}
    {s : σ} (h : Ends ok p Q s) (hp : Steps G p Q') :
    Ends ok p (fun a s' => Q a s' ∧ Q' a ∧ G s s') s :=
  (h.and_confined (J := G s) (Confined.of_steps (htrans s) hp) (hrefl s)).mono fun _ _ h => ⟨h.1.1, h.1.2, h.2⟩

end Prog

open Prog

/-- What the threads of a pool rely on and guarantee. `ok` says which steps are considered. -/
structure Rely (σ ε : Type) where
  inv : σ → Prop
  rel : σ → σ → Prop
  ok : ε → σ → σ → Prop
  refl : ∀ s, rel s s
  trans : ∀ {a b c}, rel a b → rel b c → rel a c

section Rules

variable {σ τ ε ι α β : Type} {T : Rely σ ε}
variable {Q : α → σ → Prop} {s : σ}

/-- From `s` on, `p` keeps the invariant and the relation, and `Q` holds of what it returns. -/
def Safe (T : Rely σ ε) : Prog σ ε ι α → (α → σ → Prop) → σ → Prop
  | .ret a, Q, s => ∀ s', T.rel s s' → T.inv s' → Q a s'
  | .act f k, Q, s => ∀ s1, T.rel s s1 → T.inv s1 → ∀ e v s2, f e s1 = some (v, s2) → T.ok e s1 s2 →
      T.inv s2 ∧ T.rel s1 s2 ∧ Safe T (k v) Q s2
  | .acquire _ k, Q, s => Safe T k Q s
  | .release _ k, Q, s => Safe T k Q s

/-- What is safe stays safe. -/
theorem Safe.later {s s' : σ} (hs : T.rel s s') : ∀ {p : Prog σ ε ι α}, Safe T p Q s → Safe T p Q s' := by
  intro p
  induction p with
  | ret a | act f k ih => exact fun h s1 h1 hi => h s1 (T.trans hs h1) hi
  | acquire i k ih | release i k ih => exact ih

/-- It is enough to be safe wherever the thread may find itself. -/
theorem safe_of_later : ∀ {p : Prog σ ε ι α} {s : σ}, (∀ s', T.rel s s' → T.inv s' → Safe T p Q s') → Safe T p Q s := by
  intro p
  induction p with
  | ret a => exact fun h s' h1 hi => h s' h1 hi s' (T.refl s') hi
  | act f k ih => exact fun h s1 h1 hi => h s1 h1 hi s1 (T.refl s1) hi
  | acquire i k ih | release i k ih => exact fun h => ih h

theorem Safe.mono {Q Q' : α → σ → Prop} : ∀ {p : Prog σ ε ι α} {s : σ},
    (∀ a s', T.rel s s' → T.inv s' → Q a s' → Q' a s') → Safe T p Q s → Safe T p Q' s := by
  intro p
  induction p with
  | ret a => exact fun hQ h s' h1 hi => hQ a s' h1 hi (h s' h1 hi)
  | act f k ih =>
    intro s hQ h s1 h1 hi e v s2 hf hok
    obtain ⟨hi2, hrel, hk⟩ := h s1 h1 hi e v s2 hf hok
    exact ⟨hi2, hrel, ih v (fun a s' hs' => hQ a s' (T.trans (T.trans h1 hrel) hs')) hk⟩
  | acquire i k ih | release i k ih => exact fun hQ h => ih hQ h

/-- What holds of a result holds of it from then on. -/
theorem Safe.stays : ∀ {p : Prog σ ε ι α} {s : σ}, Safe T p Q s →
    Safe T p (fun a s1 => ∀ s2, T.rel s1 s2 → T.inv s2 → Q a s2) s := by
  intro p
  induction p with
  | ret a => exact fun h s1 h1 _ s2 h2 hi => h s2 (T.trans h1 h2) hi
  | act f k ih =>
    intro s h s1 h1 hi e v s2 hf hok
    obtain ⟨hi2, hrel, hk⟩ := h s1 h1 hi e v s2 hf hok
    exact ⟨hi2, hrel, ih v hk⟩
  | acquire i k ih | release i k ih => exact fun h => ih h

theorem safe_ret {a : α} (h : ∀ s', T.rel s s' → T.inv s' → Q a s') : Safe T (.ret a : Prog σ ε ι α) Q s := h

theorem safe_bind {q : α → Prog σ ε ι β} {Q : β → σ → Prop} : ∀ {p : Prog σ ε ι α} {s : σ},
    Safe T p (fun a s' => Safe T (q a) Q s') s → Safe T (p.bind q) Q s := by
  intro p
  induction p with
  | ret a => exact fun h => safe_of_later h
  | act f k ih =>
    intro s h s1 h1 hi e v s2 hf hok
    obtain ⟨hi2, hrel, hk⟩ := h s1 h1 hi e v s2 hf hok
    exact ⟨hi2, hrel, ih v hk⟩
  | acquire i k ih | release i k ih => exact fun h => ih h

/-- An error ends the composition, a value is handed on. -/
theorem safe_andThen {ξ : Type} {p : Prog σ ε ι (Except ξ α)} {q : α → Prog σ ε ι (Except ξ β)}
    {Q : Except ξ β → σ → Prop}
    (h : Safe T p (fun r s' => (∀ a, r = .ok a → Safe T (q a) Q s') ∧ ∀ e, r = .error e → ∀ s'', T.rel s' s'' → T.inv s'' → Q (.error e) s'') s) :
    Safe T (p.andThen q) Q s := by
  refine safe_bind (h.mono fun r s' _ _ hr => ?_)
  cases r with
  | ok a => exact hr.1 a rfl
  | error e => exact hr.2 e rfl

/-- What the values of two programs promise. -/
theorem safe_thenOk {ξ : Type} {p : Prog σ ε ι (Except ξ α)} {q : α → Prog σ ε ι (Except ξ β)} {R : α → σ → Prop}
    {Q : β → σ → Prop} (hp : Safe T p (fun r s' => ∀ a, r = .ok a → R a s') s)
    (hq : ∀ a s', T.rel s s' → R a s' → Safe T (q a) (fun r s'' => ∀ b, r = .ok b → Q b s'') s') :
    Safe T (p.andThen q) (fun r s' => ∀ b, r = .ok b → Q b s') s :=
  safe_andThen (hp.mono fun _ s' hs' _ hr => ⟨fun a ha => hq a s' hs' (hr a ha), fun _ _ _ _ _ _ h => by cases h⟩)

/-- A program over a component of the state, which keeps its own invariant `J`. -/
theorem Safe.of_confined {J : τ → Prop} {G : τ → τ → Prop} {get : σ → τ} {set : τ → σ → σ}
    (hJ : ∀ s, T.inv s → J (get s))
    (hstep : ∀ e s t, T.inv s → J t → G (get s) t → T.ok e s (set t s) → T.inv (set t s) ∧ T.rel s (set t s))
    {Q : α → Prop} : ∀ {p : Prog τ ε ι α} {s : σ}, Confined J G p Q → Safe T (p.zoom get set) (fun a _ => Q a) s := by
  intro p
  induction p with
  | ret a => exact fun h _ _ _ => h
  | act f k ih =>
    intro s h s1 _ hi e v s2 hf hok
    obtain ⟨⟨v, t⟩, hft, heq⟩ := Option.map_eq_some_iff.1 hf
    cases heq
    obtain ⟨ht, hg, hk⟩ := h e (get s1) v t (hJ s1 hi) hft
    obtain ⟨hinv, hrel⟩ := hstep e s1 t hi ht hg hok
    exact ⟨hinv, hrel, ih v hk⟩
  | acquire i k ih | release i k ih => exact fun h => ih h

end Rules

/-- What a thread returned. -/
def Thread.result {σ ε ι ρ : Type} (t : Thread σ ε ι ρ) : Option ρ :=
  match t.prog with
  | some (.ret a) => some a
  | _ => none

theorem Thread.prog_of_result {σ ε ι ρ : Type} {t : Thread σ ε ι ρ} {a : ρ} (h : t.result = some a) :
    t.prog = some (.ret a) := by
  unfold result at h
  split at h
  · rename_i hp; cases h; exact hp
  · cases h

namespace Pool

variable {Op σ ε ι ρ : Type} [DecidableEq ι] {T : Rely σ ε} {S : System Op σ ε ι ρ} {Q : ρ → σ → Prop}

/-- The rest of the thread is safe to run. -/
def SafeFrom (T : Rely σ ε) (Q : ρ → σ → Prop) (s : σ) (t : Thread σ ε ι ρ) : Prop :=
  ∀ p, t.prog = some p → Safe T p Q s

omit [DecidableEq ι] in
theorem SafeFrom.later {s s' : σ} {t : Thread σ ε ι ρ} (hs : T.rel s s') (h : SafeFrom T Q s t) :
    SafeFrom T Q s' t := fun p hp => (h p hp).later hs

/-- One step of a thread. -/
theorem SafeFrom.step {free : ι → Bool} {e : ε} {s s' : σ} {t t' : Thread σ ε ι ρ} (hi : T.inv s)
    (h : SafeFrom T Q s t) (hs : stepThread free e s t = some (s', t')) (hok : T.ok e s s') :
    T.inv s' ∧ T.rel s s' ∧ SafeFrom T Q s' t' := by
  rcases stepThread_cases hs with ⟨β, f, k, v, hp, hf, rfl⟩ | ⟨i, k, hp, -, rfl, rfl⟩ | ⟨i, k, hp, rfl, rfl⟩
  · obtain ⟨hi', hrel, hk⟩ := h _ hp s (T.refl s) hi e v s' hf hok
    exact ⟨hi', hrel, fun p hp' => by cases hp'; exact hk⟩
  · have hk : Safe T k Q s' := h (.acquire i k) hp
    exact ⟨hi, T.refl _, fun p hp' => by cases hp'; exact hk⟩
  · have hk : Safe T k Q s' := h (.release i k) hp
    exact ⟨hi, T.refl _, fun p hp' => by cases hp'; exact hk⟩

/-- **The invariant holds in every pool reached, and every thread is safe to go on.** -/
theorem Reach.safe {ok : Pool σ ε ι ρ → Move Op ε → Prop} {w0 w : Pool σ ε ι ρ}
    (hops : ∀ w o, ok w (.spawn o) → T.inv w.st → Safe T (S.prog o) Q w.st)
    (hrun : ∀ w i e w', ok w (.run i e) → w.next S (.run i e) = some w' → T.ok e w.st w'.st)
    (hcrash : ∀ w, ok w .crash → T.inv w.st → T.inv (S.reset w.st))
    (h0 : T.inv w0.st) (ht0 : ∀ t ∈ w0.threads, SafeFrom T Q w0.st t) (h : Reach S ok w0 w) :
    T.inv w.st ∧ ∀ t ∈ w.threads, SafeFrom T Q w.st t := by
  induction h with
  | refl => exact ⟨h0, ht0⟩
  | @step w w' m _ hok hm ih =>
    obtain ⟨hi, hts⟩ := ih
    cases m with
    | spawn o =>
      cases hm
      refine ⟨hi, fun t ht => ?_⟩
      rcases List.mem_append.1 ht with ht | ht
      · exact hts t ht
      · obtain rfl := List.mem_singleton.1 ht
        intro p hp
        cases hp
        exact hops w o hok hi
    | run i e =>
      have hstep := hrun w i e w' hok hm
      obtain ⟨t, s', t', hget, hst, rfl⟩ := next_run hm
      obtain ⟨hi', hrel, ht'⟩ := (hts t (List.mem_of_getElem? hget)).step hi hst hstep
      refine ⟨hi', fun u hu => ?_⟩
      rcases List.mem_or_eq_of_mem_set hu with hu | rfl
      · exact (hts u hu).later hrel
      · exact ht'
    | stop i =>
      cases hm
      refine ⟨hi, fun u hu => ?_⟩
      rcases List.mem_or_eq_of_mem_set hu with hu | rfl
      · exact hts u hu
      · exact nofun
    | crash =>
      cases hm
      refine ⟨hcrash w hok hi, fun u hu => ?_⟩
      obtain ⟨-, -, rfl⟩ := List.mem_map.1 hu
      exact nofun

omit [DecidableEq ι] in
/-- What a thread returned meets its promise. -/
theorem SafeFrom.returned {s : σ} {t : Thread σ ε ι ρ} {a : ρ} (hi : T.inv s) (h : SafeFrom T Q s t)
    (ht : t.result = some a) : Q a s := h _ (Thread.prog_of_result ht) s (T.refl s) hi

end Pool

end Conc
