import QssStorage.Conc.Logic
import QssStorage.Conc.Rely

/-!
# States with their past

A `Timeline` is a state together with every state before it. A program over the states runs
over timelines (`timed`), each of its steps adding a moment; `moment` tells the time. What was
the case at a moment stays so (`Timeline.Extends.stateAt`), so a thread can carry it along whatever
the others do: "at some time during this request" is a promise a result can make.

* `wp_timed`, `wp_clocked`: a protocol, kept at every moment.
-/

namespace Conc

/-- A state and the states before it, the oldest first. -/
structure Timeline (σ : Type) where
  past : List σ
  now : σ

namespace Timeline

variable {σ : Type}

/-- Every moment, the present one last. -/
def moments (l : Timeline σ) : List σ := l.past ++ [l.now]

/-- The state at a time. -/
def stateAt (l : Timeline σ) (t : ℕ) : Option σ := l.moments[t]?

/-- One more moment. -/
def advance (s : σ) (l : Timeline σ) : Timeline σ := ⟨l.moments, s⟩

/-- A timeline without a past. -/
def start (s : σ) : Timeline σ := ⟨[], s⟩

/-- The later timeline has the moments of the earlier one. -/
def Extends (l l' : Timeline σ) : Prop := l.moments <+: l'.moments

theorem extends_refl (l : Timeline σ) : l.Extends l := List.prefix_refl _

theorem extends_advance (s : σ) (l : Timeline σ) : l.Extends (l.advance s) := List.prefix_append _ _

theorem stateAt_length (l : Timeline σ) : l.stateAt l.past.length = some l.now := by
  unfold Timeline.stateAt moments
  rw [List.getElem?_append_right (le_refl _), Nat.sub_self]
  rfl

/-- What was the case at a moment stays so. -/
theorem Extends.stateAt {l l' : Timeline σ} (h : l.Extends l') {t : ℕ} {s : σ} (ht : l.stateAt t = some s) :
    l'.stateAt t = some s := by
  obtain ⟨rest, hrest⟩ := h
  unfold Timeline.stateAt at *
  rw [← hrest, List.getElem?_append_left (List.getElem?_eq_some_iff.1 ht).1, ht]

theorem Extends.length_le {l l' : Timeline σ} (h : l.Extends l') : l.past.length ≤ l'.past.length := by
  have hle := List.IsPrefix.length_le h
  simp only [moments, List.length_append, List.length_singleton] at hle
  omega

/-- No moment is later than the present one. -/
theorem le_of_stateAt {l : Timeline σ} {t : ℕ} {s : σ} (h : l.stateAt t = some s) : t ≤ l.past.length := by
  have hlt := (List.getElem?_eq_some_iff.1 h).1
  simp only [moments, List.length_append, List.length_singleton] at hlt
  omega

/-- An invariant of every moment, over timelines that grow. -/
def rely (ε : Type) (J : σ → Prop) : Rely (Timeline σ) ε where
  inv l := J l.now
  rel := Extends
  ok _ _ _ := True
  refl := extends_refl
  trans := List.IsPrefix.trans

end Timeline

namespace Prog

variable {σ ε ι α : Type}

/-- The program over timelines. -/
def timed (p : Prog σ ε ι α) : Prog (Timeline σ) ε ι α := p.zoom Timeline.now Timeline.advance

/-- The time. -/
def moment : Prog (Timeline σ) ε ι ℕ := step fun _ l => some (l.past.length, l)

/-- The program, with the times it started and ended at. -/
def clocked (p : Prog σ ε ι α) : Prog (Timeline σ) ε ι (ℕ × α × ℕ) :=
  moment.bind fun since => p.timed.bind fun a => moment.bind fun till => ret (since, a, till)

@[simp] theorem timed_ret (a : α) : (ret a : Prog σ ε ι α).timed = ret a := rfl

@[simp] theorem timed_bind {β : Type} (p : Prog σ ε ι α) (q : α → Prog σ ε ι β) :
    (p.bind q).timed = p.timed.bind fun a => (q a).timed := zoom_bind _ _ p q

@[simp] theorem timed_andThen {β ξ : Type} (p : Prog σ ε ι (Except ξ α)) (q : α → Prog σ ε ι (Except ξ β)) :
    (p.andThen q).timed = p.timed.andThen fun a => (q a).timed := zoom_andThen _ _ p q

end Prog

open Prog

variable {σ ε ι α : Type} {J : σ → Prop}

/-- A program that keeps the invariant. -/
theorem Safe.timed {G : σ → σ → Prop} {Q : α → Prop} {p : Prog σ ε ι α} (h : Confined J G p Q) (l : Timeline σ) :
    Safe (Timeline.rely ε J) p.timed (fun a _ => Q a) l := by
  refine Safe.of_confined (J := J) (G := G) (fun _ hl => hl) (fun e l s _ hs _ _ => ?_) h
  exact ⟨hs, Timeline.extends_advance s l⟩

/-- One step: what it found and what it left are moments of every later timeline. -/
theorem safe_timed_step {f : ε → σ → Option (α × σ)} {Q : α → Timeline σ → Prop} {l : Timeline σ}
    (h : ∀ e a s s' t, J s → f e s = some (a, s') → l.past.length ≤ t → J s' ∧
      ∀ l', Timeline.Extends l l' → J l'.now → l'.stateAt t = some s → l'.stateAt (t + 1) = some s' → Q a l') :
    Safe (Timeline.rely ε J) (step f : Prog σ ε ι α).timed Q l := by
  intro l1 hl1 hi e a l2 hf _
  obtain ⟨⟨a, s'⟩, hfs, heq⟩ := Option.map_eq_some_iff.1 hf
  cases heq
  have hle := hl1.length_le
  obtain ⟨hs', hQ⟩ := h e a l1.now s' l1.past.length hi hfs hle
  refine ⟨hs', Timeline.extends_advance s' l1, fun l' hl' hi' => ?_⟩
  have hbefore : (l1.advance s').stateAt l1.past.length = some l1.now :=
    (Timeline.extends_advance s' l1).stateAt l1.stateAt_length
  have hafter : (l1.advance s').stateAt (l1.past.length + 1) = some s' := by
    have hlen : (l1.advance s').past.length = l1.past.length + 1 := by simp [Timeline.advance, Timeline.moments]
    rw [← hlen]
    exact Timeline.stateAt_length _
  exact hQ l' ((hl1.trans (Timeline.extends_advance s' l1)).trans hl') hi' (hl'.stateAt hbefore) (hl'.stateAt hafter)

theorem safe_moment {Q : ℕ → Timeline σ → Prop} {l : Timeline σ}
    (h : ∀ l', Timeline.Extends l l' → J l'.now → ∀ l'', Timeline.Extends l' l'' → J l''.now → Q l'.past.length l'') :
    Safe (Timeline.rely ε J) (moment : Prog (Timeline σ) ε ι ℕ) Q l := by
  intro l1 hl1 hi e t l2 hf _
  cases hf
  exact ⟨hi, Timeline.extends_refl _, fun l' hl' hi' => h l1 hl1 hi l' hl' hi'⟩

/-- A program and the times around it: what it promises when it ends, if later moments leave it
promised. -/
theorem safe_clocked {Q : ℕ × α × ℕ → Timeline σ → Prop} {p : Prog σ ε ι α} {l : Timeline σ}
    (hstable : ∀ r l l', Timeline.Extends l l' → Q r l → Q r l')
    (h : ∀ l0, J l0.now → Safe (Timeline.rely ε J) p.timed
      (fun a l1 => Q (l0.past.length, a, l1.past.length) l1) l0) :
    Safe (Timeline.rely ε J) p.clocked Q l := by
  refine safe_bind (safe_moment fun l0 _ hi l' hl' _ => ?_)
  refine safe_bind (((h l0 hi).later hl').stays.mono fun a l1 _ _ hQ => ?_)
  -- the clock is read after the program has ended: what was promised then still holds
  refine safe_bind (safe_moment fun l2 hl2 hi2 l3 hl3 _ => safe_ret fun l4 hl4 _ => ?_)
  exact hstable _ l2 l4 (hl3.trans hl4) (hQ l2 hl2 hi2)

/-! ## Protocols -/

section Protocols

variable {γ : Type} [AddCommMonoid γ] {P : Protocol σ ε ι γ} {p : Prog σ ε ι α}

/-- The protocol of the present moment. -/
def Protocol.timed (P : Protocol σ ε ι γ) : Protocol (Timeline σ) ε ι γ where
  allow l e := P.allow l.now e
  within l := P.within l.now
  tok := P.tok
  inv l g := P.inv l.now g

variable [DecidableEq ι]

/-- What a program keeps it keeps at every moment. -/
theorem wp_timed {Q : α → γ → Prop} : ∀ {g : γ}, wp P p Q g → wp P.timed p.timed Q g := by
  induction p with
  | ret a => exact id
  | act f k ih =>
    intro g h l r hi e he v l' hf hw
    obtain ⟨⟨v, s'⟩, hfs, heq⟩ := Option.map_eq_some_iff.1 hf
    cases heq
    obtain ⟨g', htok, hi', hk⟩ := h l.now r hi e he v s' hfs hw
    exact ⟨g', htok, hi', ih v hk⟩
  | acquire i k ih =>
    intro g h l r hi hfree
    obtain ⟨g', htok, hi', hk⟩ := h l.now r hi hfree
    exact ⟨g', htok, hi', ih hk⟩
  | release i k ih =>
    intro g h
    refine ⟨h.1, fun l r hi => ?_⟩
    obtain ⟨g', htok, hi', hk⟩ := h.2 l.now r hi
    exact ⟨g', htok, hi', ih hk⟩

theorem wp_moment {Q : ℕ → γ → Prop} {g : γ} (h : ∀ t, Q t g) : wp P.timed (moment : Prog (Timeline σ) ε ι ℕ) Q g := by
  intro l r hi e _ t l' hf _
  cases hf
  exact ⟨g, rfl, hi, h _⟩

/-- With the times around it. -/
theorem wp_clocked {Q : α → γ → Prop} {Q' : ℕ × α × ℕ → γ → Prop} {g : γ} (h : wp P p Q g)
    (hQ : ∀ a g since till, Q a g → Q' (since, a, till) g) : wp P.timed p.clocked Q' g := by
  refine wp_bind (wp_moment fun since => wp_bind (wp_mono (fun a g hg => ?_) (wp_timed h)))
  exact wp_bind (wp_moment fun till => hQ a g since till hg)

end Protocols

end Conc
