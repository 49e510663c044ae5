import Mathlib

/-!
# Programs of atomic steps, and pools of them

A `Prog` is a program whose steps are atomic: a step reads and writes a shared
state `σ`, is told by the environment (`ε`) what it cannot know (a failure, a
clock, a placement), and may be blocked. Between two steps anything can happen.
Mutual-exclusion locks (`ι`) are part of the language: `acquire` blocks while a
thread of the pool holds the lock, and a thread that is stopped holds none.

A `Pool` is a shared state with a list of threads. `Pool.next` is one move of the
scheduler: start an operation, let one thread take one step, stop a thread
wherever it stands, or crash, which stops every thread at once.
`Pool.Reach` collects the states of all runs whose moves meet a condition.
-/

namespace Conc

/-- A program of atomic steps over a shared state `σ`. -/
inductive Prog (σ ε ι α : Type) : Type 1 where
  | ret (a : α)
  | act {β : Type} (f : ε → σ → Option (β × σ)) (k : β → Prog σ ε ι α)
  | acquire (i : ι) (k : Prog σ ε ι α)
  | release (i : ι) (k : Prog σ ε ι α)

namespace Prog

variable {σ τ ε ι α β γ : Type}
variable (get : τ → σ) (p : Prog σ ε ι α) (set : σ → τ → τ) (q : α → Prog σ ε ι β)

/-- Sequential composition. -/
def bind : Prog σ ε ι α → (α → Prog σ ε ι β) → Prog σ ε ι β
  | ret a, q => q a
  | act f k, q => act f fun v => (k v).bind q
  | acquire i k, q => acquire i (k.bind q)
  | release i k, q => release i (k.bind q)

instance : Monad (Prog σ ε ι) where
  pure := ret
  bind := bind

@[simp] theorem pure_eq (a : α) : (pure a : Prog σ ε ι α) = ret a := rfl

@[simp] theorem bind_eq : (p >>= q) = p.bind q := rfl

@[simp] theorem map_eq (g : α → β) (p : Prog σ ε ι α) : g <$> p = p.bind fun a => ret (g a) := rfl

@[simp] theorem ret_bind (a : α) (q : α → Prog σ ε ι β) : (ret a).bind q = q a := rfl

@[simp] theorem act_bind (f : ε → σ → Option (γ × σ)) (k : γ → Prog σ ε ι α) (q : α → Prog σ ε ι β) :
    (act f k).bind q = act f fun v => (k v).bind q := rfl

@[simp] theorem acquire_bind (i : ι) (k : Prog σ ε ι α) (q : α → Prog σ ε ι β) :
    (acquire i k).bind q = acquire i (k.bind q) := rfl

@[simp] theorem release_bind (i : ι) (k : Prog σ ε ι α) (q : α → Prog σ ε ι β) :
    (release i k).bind q = release i (k.bind q) := rfl

theorem bind_assoc (r : β → Prog σ ε ι γ) : (p.bind q).bind r = p.bind fun a => (q a).bind r := by
  induction p with
  | ret a => rfl
  | act f k ih => simp only [act_bind, ih]
  | acquire i k ih => simp only [acquire_bind, ih]
  | release i k ih => simp only [release_bind, ih]

/-- The program of one atomic step. -/
def step (f : ε → σ → Option (β × σ)) : Prog σ ε ι β := act f ret

/-- Take one lock. -/
def lock (i : ι) : Prog σ ε ι Unit := acquire i (ret ())

/-- Give one lock back. -/
def unlock (i : ι) : Prog σ ε ι Unit := release i (ret ())

/-- Take locks one after the other. -/
def lockAll : List ι → Prog σ ε ι Unit
  | [] => ret ()
  | i :: is => acquire i (lockAll is)

/-- Give locks back one after the other. -/
def unlockAll : List ι → Prog σ ε ι Unit
  | [] => ret ()
  | i :: is => release i (unlockAll is)

/-- Go on with the value of a successful computation, keep its error otherwise. -/
def andThen {ξ : Type} (p : Prog σ ε ι (Except ξ α)) (q : α → Prog σ ε ι (Except ξ β)) : Prog σ ε ι (Except ξ β) :=
  p.bind fun
    | .ok a => q a
    | .error e => ret (.error e)

/-- A program over a component of a larger state. -/
def zoom (get : τ → σ) (set : σ → τ → τ) : Prog σ ε ι α → Prog τ ε ι α
  | ret a => ret a
  | act f k => act (fun e t => (f e (get t)).map fun vs => (vs.1, set vs.2 t)) fun v => (k v).zoom get set
  | acquire i k => acquire i (k.zoom get set)
  | release i k => release i (k.zoom get set)

@[simp] theorem zoom_ret (a : α) : (ret a : Prog σ ε ι α).zoom get set = ret a := rfl

@[simp] theorem zoom_bind (p : Prog σ ε ι α) (q : α → Prog σ ε ι β) :
    (p.bind q).zoom get set = (p.zoom get set).bind fun a => (q a).zoom get set := by
  induction p with
  | ret a => rfl
  | act f k ih => simp only [act_bind, zoom, ih]
  | acquire i k ih => simp only [acquire_bind, zoom, ih]
  | release i k ih => simp only [release_bind, zoom, ih]

@[simp] theorem zoom_andThen {ξ : Type} (p : Prog σ ε ι (Except ξ α)) (q : α → Prog σ ε ι (Except ξ β)) :
    (p.andThen q).zoom get set = (p.zoom get set).andThen fun a => (q a).zoom get set := by
  unfold andThen
  rw [zoom_bind]
  congr
  funext r
  cases r <;> rfl

@[simp] theorem zoom_step (f : ε → σ → Option (α × σ)) :
    (step f : Prog σ ε ι α).zoom get set = step fun e t => (f e (get t)).map fun vs => (vs.1, set vs.2 t) := rfl

/-- The program run alone, the environment answering the same at every step;
`none` if it blocks. -/
def eval (e : ε) : Prog σ ε ι α → σ → Option (α × σ)
  | ret a, s => some (a, s)
  | act f k, s =>
    match f e s with
    | some (v, s') => (k v).eval e s'
    | none => none
  | acquire _ k, s => k.eval e s
  | release _ k, s => k.eval e s

end Prog

/-- A thread: the rest of its program (`none` once it was stopped) and the locks it holds. -/
structure Thread (σ ε ι ρ : Type) where
  prog : Option (Prog σ ε ι ρ)
  held : List ι

/-- The thread has run to its end. -/
def Thread.returned {σ ε ι ρ : Type} (t : Thread σ ε ι ρ) : Bool :=
  match t.prog with
  | some (.ret _) => true
  | _ => false

theorem Thread.returned_iff {σ ε ι ρ : Type} {t : Thread σ ε ι ρ} : t.returned = true ↔ ∃ a, t.prog = some (.ret a) := by
  unfold returned
  split
  · rename_i a h; exact ⟨fun _ => ⟨a, h⟩, fun _ => rfl⟩
  · rename_i h; exact ⟨nofun, fun ⟨a, ha⟩ => absurd ha (h a)⟩

/-- The operations a system offers, and what a crash leaves of the shared state. -/
structure System (Op σ ε ι ρ : Type) where
  prog : Op → Prog σ ε ι ρ
  reset : σ → σ

/-- A shared state and the threads that run over it. -/
structure Pool (σ ε ι ρ : Type) where
  st : σ
  threads : List (Thread σ ε ι ρ)

/-- One move of the scheduler. -/
inductive Move (Op ε : Type) where
  | spawn (o : Op)
  | run (i : ℕ) (e : ε)
  | stop (i : ℕ)
  | crash

namespace Pool

variable {Op σ ε ι ρ : Type} [DecidableEq ι]
variable {S : System Op σ ε ι ρ} {w0 : Pool σ ε ι ρ}

/-- The pool with no thread. -/
def start (s : σ) : Pool σ ε ι ρ := ⟨s, []⟩

/-- No thread holds lock `i`. -/
def free (w : Pool σ ε ι ρ) (i : ι) : Bool := w.threads.all fun t => i ∉ t.held

/-- One step of a thread, in a state where `free` says which locks nobody holds. -/
def stepThread (free : ι → Bool) (e : ε) (s : σ) (t : Thread σ ε ι ρ) : Option (σ × Thread σ ε ι ρ) :=
  match t.prog with
  | some (.act f k) => (f e s).map fun vs => (vs.2, ⟨some (k vs.1), t.held⟩)
  | some (.acquire i k) => if free i then some (s, ⟨some k, i :: t.held⟩) else none
  | some (.release i k) => some (s, ⟨some k, t.held.erase i⟩)
  | some (.ret _) => none
  | none => none

/-- One move: `none` if it is not enabled. -/
def next (S : System Op σ ε ι ρ) (w : Pool σ ε ι ρ) : Move Op ε → Option (Pool σ ε ι ρ)
  | .spawn o => some ⟨w.st, w.threads ++ [⟨some (S.prog o), []⟩]⟩
  | .run i e =>
    match w.threads[i]? with
    | some t => (stepThread w.free e w.st t).map fun st => ⟨st.1, w.threads.set i st.2⟩
    | none => none
  | .stop i => some ⟨w.st, w.threads.set i ⟨none, []⟩⟩
  | .crash => some ⟨S.reset w.st, w.threads.map fun _ => ⟨none, []⟩⟩

/-- What one step of a thread can be. -/
theorem stepThread_cases {free : ι → Bool} {e : ε} {s s' : σ} {t t' : Thread σ ε ι ρ}
    (h : stepThread free e s t = some (s', t')) :
    (∃ (β : Type) (f : ε → σ → Option (β × σ)) (k : β → Prog σ ε ι ρ) (v : β),
      t.prog = some (.act f k) ∧ f e s = some (v, s') ∧ t' = ⟨some (k v), t.held⟩) ∨
    (∃ i k, t.prog = some (.acquire i k) ∧ free i = true ∧ s' = s ∧ t' = ⟨some k, i :: t.held⟩) ∨
    ∃ i k, t.prog = some (.release i k) ∧ s' = s ∧ t' = ⟨some k, t.held.erase i⟩ := by
  unfold stepThread at h
  split at h
  · rename_i f k hp
    obtain ⟨⟨v, s1⟩, hf, heq⟩ := Option.map_eq_some_iff.1 h
    cases heq
    exact .inl ⟨_, f, k, v, hp, hf, rfl⟩
  · rename_i i k hp
    split at h
    · rename_i hfree
      cases h
      exact .inr (.inl ⟨i, k, hp, hfree, rfl, rfl⟩)
    · cases h
  · rename_i i k hp
    cases h
    exact .inr (.inr ⟨i, k, hp, rfl, rfl⟩)
  · cases h
  · cases h

/-- A move that runs a thread is a step of it. -/
theorem next_run {w w' : Pool σ ε ι ρ} {i : ℕ} {e : ε} (h : w.next S (.run i e) = some w') :
    ∃ t s' t', w.threads[i]? = some t ∧ stepThread w.free e w.st t = some (s', t') ∧ w' = ⟨s', w.threads.set i t'⟩ := by
  simp only [next] at h
  split at h
  · rename_i t ht
    obtain ⟨⟨s', t'⟩, hst, rfl⟩ := Option.map_eq_some_iff.1 h
    exact ⟨t, s', t', ht, hst, rfl⟩
  · cases h

/-- Where a thread comes from that is there after a move. -/
theorem next_thread {w w' : Pool σ ε ι ρ} {m : Move Op ε} (h : w.next S m = some w') {j : ℕ} {t' : Thread σ ε ι ρ}
    (ht' : w'.threads[j]? = some t') :
    w.threads[j]? = some t' ∨ (∃ o, m = .spawn o ∧ t' = ⟨some (S.prog o), []⟩) ∨ t' = ⟨none, []⟩ ∨
      ∃ e t, m = .run j e ∧ w.threads[j]? = some t ∧ stepThread w.free e w.st t = some (w'.st, t') := by
  have hset : ∀ {i : ℕ} {t : Thread σ ε ι ρ}, (w.threads.set i t)[j]? = some t' →
      w.threads[j]? = some t' ∨ i = j ∧ t' = t := by
    intro i t hget
    by_cases hij : i = j
    · rw [hij, List.getElem?_set_self'] at hget
      obtain ⟨_, _, (heq : t = t')⟩ := Option.map_eq_some_iff.1 hget
      exact .inr ⟨hij, heq.symm⟩
    · rw [List.getElem?_set_ne hij] at hget
      exact .inl hget
  cases m with
  | spawn o =>
    cases h
    rw [List.getElem?_append] at ht'
    split at ht'
    · exact .inl ht'
    · exact .inr (.inl ⟨o, rfl, List.mem_singleton.1 (List.mem_of_getElem? ht')⟩)
  | run i e =>
    obtain ⟨t, s', t1, hi, hst, rfl⟩ := next_run h
    rcases hset ht' with ht' | ⟨rfl, rfl⟩
    · exact .inl ht'
    · exact .inr (.inr (.inr ⟨e, t, rfl, hi, hst⟩))
  | stop i =>
    cases h
    exact (hset ht').imp_right fun h => .inr (.inl h.2)
  | crash =>
    cases h
    obtain ⟨-, -, rfl⟩ := List.mem_map.1 (List.mem_of_getElem? ht')
    exact .inr (.inr (.inl rfl))

/-- A list of moves. -/
def exec (S : System Op σ ε ι ρ) (w : Pool σ ε ι ρ) : List (Move Op ε) → Option (Pool σ ε ι ρ)
  | [] => some w
  | m :: ms =>
    match w.next S m with
    | some w' => w'.exec S ms
    | none => none

/-- The pools reached from `w0` by moves that all meet `ok` in the pool they are made in. -/
inductive Reach (S : System Op σ ε ι ρ) (ok : Pool σ ε ι ρ → Move Op ε → Prop) (w0 : Pool σ ε ι ρ) :
    Pool σ ε ι ρ → Prop where
  | refl : Reach S ok w0 w0
  | step {w w' : Pool σ ε ι ρ} (m : Move Op ε) (h : Reach S ok w0 w) (hok : ok w m)
      (hm : w.next S m = some w') : Reach S ok w0 w'

theorem Reach.mono {ok ok' : Pool σ ε ι ρ → Move Op ε → Prop} (hok : ∀ w m, ok w m → ok' w m)
    (h : Reach S ok w0 w) : Reach S ok' w0 w := by
  induction h with
  | refl => exact .refl
  | step m _ hm hn ih => exact .step m ih (hok _ m hm) hn

/-- What a list of moves reaches. -/
theorem Reach.exec {ok : Pool σ ε ι ρ → Move Op ε → Prop} :
    ∀ {ms : List (Move Op ε)} {w w' : Pool σ ε ι ρ}, Reach S ok w0 w → (∀ m ∈ ms, ∀ w, ok w m) →
      w.exec S ms = some w' → Reach S ok w0 w' := by
  intro ms
  induction ms with
  | nil => intro w w' h _ he; cases he; exact h
  | cons m ms ih =>
    intro w w' h hok he
    unfold Pool.exec at he
    split at he
    · rename_i w1 hm
      exact ih (.step m h (hok m List.mem_cons_self w) hm) (fun m hm => hok m (List.mem_cons_of_mem _ hm)) he
    · cases he

/-- The moves that lead into states that meet `P`. -/
def Into (S : System Op σ ε ι ρ) (P : σ → Prop) (w : Pool σ ε ι ρ) (m : Move Op ε) : Prop :=
  ∀ w', w.next S m = some w' → P w'.st

/-- The pool after a list of moves, each of which leads into a state that meets `P`. -/
def execInto (S : System Op σ ε ι ρ) (P : σ → Prop) [DecidablePred P] :
    List (Move Op ε) → Pool σ ε ι ρ → Option (Pool σ ε ι ρ)
  | [], w => some w
  | m :: ms, w =>
    match w.next S m with
    | some w' => if P w'.st then execInto S P ms w' else none
    | none => none

theorem execInto_cons {P : σ → Prop} [DecidablePred P] {m : Move Op ε} {ms : List (Move Op ε)}
    {w w' : Pool σ ε ι ρ} (h : execInto S P (m :: ms) w = some w') :
    ∃ w1, w.next S m = some w1 ∧ Into S P w m ∧ execInto S P ms w1 = some w' := by
  unfold execInto at h
  split at h
  · rename_i w1 hm
    split at h
    · rename_i hP
      exact ⟨w1, hm, fun w2 hm' => by cases hm.symm.trans hm'; exact hP, h⟩
    · cases h
  · cases h

theorem Reach.execInto {P : σ → Prop} [DecidablePred P] :
    ∀ {ms : List (Move Op ε)} {w w' : Pool σ ε ι ρ}, Reach S ok w0 w →
      (∀ m ∈ ms, ∀ w, Into S P w m → ok w m) → Pool.execInto S P ms w = some w' →
      Reach S ok w0 w' := by
  intro ms
  induction ms with
  | nil => intro w w' h _ he; cases he; exact h
  | cons m ms ih =>
    intro w w' h hok he
    obtain ⟨w1, hm, hinto, he⟩ := execInto_cons he
    exact ih (.step m h (hok m List.mem_cons_self w hinto) hm)
      (fun m hm => hok m (List.mem_cons_of_mem _ hm)) he

/-- Nothing is in flight: every thread has returned. -/
def Finished (w : Pool σ ε ι ρ) : Prop := ∀ t ∈ w.threads, t.returned = true

instance (w : Pool σ ε ι ρ) : Decidable w.Finished :=
  inferInstanceAs (Decidable (∀ t ∈ w.threads, t.returned = true))

end Pool

end Conc
