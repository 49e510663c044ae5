import Mathlib

/-!
# Readers over one buffer

A `Reader` takes values off a buffer at a position and moves the position on. It ends well,
with an error, or with a panic: `slice` and `index` panic outside the buffer, as indexing
does in a language with bounds checks.

`Sound` is what a reader must satisfy for its input to be harmless: it does not panic, it
stays inside the buffer, and what it read decides its answer (`Sound.bind`). `Reads p w a`
says that `p` takes the symbols `w` for the value `a`, wherever they stand (`Reads.bind`).

* `closed_ne_panic`, `closed_unextendable`: **a sound reader that must end at the end of the
  buffer never panics, and no buffer it accepts is a strict prefix of another**.
-/

namespace Cursor

open List

/-- How a computation ends. -/
inductive Result (ε α : Type) where
  | ok (a : α)
  | err (e : ε)
  | panic
deriving DecidableEq

namespace Result

variable {ε α β : Type}

/-- The computation gave a value. -/
def isOk : Result ε α → Bool
  | ok _ => true
  | err _ => false
  | panic => false

/-- Go on with the value. -/
def bind : Result ε α → (α → Result ε β) → Result ε β
  | ok a, k => k a
  | err e, _ => err e
  | panic, _ => panic

@[simp] theorem ok_bind (a : α) (k : α → Result ε β) : (ok a).bind k = k a := rfl

/-- The same computation, its errors reported as `f` says. -/
def mapErr {ε' : Type} (f : ε → ε') : Result ε α → Result ε' α
  | ok a => ok a
  | err e => err (f e)
  | panic => panic

theorem bind_eq_ok {r : Result ε α} {k : α → Result ε β} {b : β} : r.bind k = ok b ↔ ∃ a, r = ok a ∧ k a = ok b := by
  cases r <;> simp [bind]

theorem isOk_iff {r : Result ε α} : r.isOk = true ↔ ∃ a, r = ok a := by
  cases r <;> simp [isOk]

end Result

variable {β ε α γ : Type}

/-- The symbols of `buf` from `start` up to `stop`. -/
def slice (buf : List β) (start stop : ℕ) : Result ε (List β) :=
  if start ≤ stop ∧ stop ≤ buf.length then .ok ((buf.take stop).drop start) else .panic

/-- The symbol of `buf` at `i`. -/
def index (buf : List β) (i : ℕ) : Result ε β :=
  match buf[i]? with
  | some b => .ok b
  | none => .panic

/-- The list as one of exactly `n` symbols. -/
def exactly (n : ℕ) (l : List β) : Result ε (List β) := if l.length = n then .ok l else .panic

/-- A computation that takes a value off the buffer at a position, with the position after it. -/
def Reader (β ε α : Type) := List β → ℕ → Result ε (α × ℕ)

namespace Reader

/-- One reader, and from where it stopped the next. -/
def bind (p : Reader β ε α) (k : α → Reader β ε γ) : Reader β ε γ := fun buf pos =>
  (p buf pos).bind fun r => k r.1 buf r.2

/-- A computation that reads nothing. -/
def lift (r : Result ε α) : Reader β ε α := fun _ pos => r.bind fun a => .ok (a, pos)

/-- The same reader, its errors reported as `f` says. -/
def mapErr {ε' : Type} (f : ε → ε') (p : Reader β ε α) : Reader β ε' α := fun buf pos => (p buf pos).mapErr f

instance : Monad (Reader β ε) where
  pure a := lift (.ok a)
  bind := bind

theorem pure_eq (a : α) : (pure a : Reader β ε α) = lift (.ok a) := rfl

theorem bind_eq (p : Reader β ε α) (k : α → Reader β ε γ) : p >>= k = p.bind k := rfl

/-- The reader on a whole buffer, which `finish` then closes. -/
def closed (finish : List β → ℕ → Result ε Unit) (p : Reader β ε α) (buf : List β) : Result ε α :=
  (p buf 0).bind fun r => (finish buf r.2).bind fun _ => .ok r.1

end Reader

/-! ## Readers that any buffer can be given to -/

/-- The reader does not panic, stays inside the buffer, gives values that meet `Q`, and
answers the same when more symbols follow. -/
structure Sound (p : Reader β ε α) (Q : α → Prop) : Prop where
  safe : ∀ {buf pos}, pos ≤ buf.length → p buf pos ≠ .panic
  within : ∀ {buf pos a stop}, pos ≤ buf.length → p buf pos = .ok (a, stop) → stop ≤ buf.length ∧ Q a
  append : ∀ {buf pos a stop} more, pos ≤ buf.length → p buf pos = .ok (a, stop) → p (buf ++ more) pos = .ok (a, stop)

theorem Sound.lift {r : Result ε α} {Q : α → Prop} (h : r ≠ .panic) (hQ : ∀ a, r = .ok a → Q a) :
    Sound (Reader.lift r : Reader β ε α) Q := by
  cases r with
  | panic => exact absurd rfl h
  | err e => exact ⟨fun _ => nofun, nofun, nofun⟩
  | ok a =>
    refine ⟨fun _ => nofun, ?_, fun _ _ h => h⟩
    intro buf pos b stop hpos hread
    cases hread
    exact ⟨hpos, hQ a rfl⟩

theorem Sound.pure {a : α} {Q : α → Prop} (h : Q a) : Sound (Pure.pure a : Reader β ε α) Q := by
  refine Sound.lift nofun ?_
  intro b hb
  cases hb
  exact h

theorem Sound.bind {p : Reader β ε α} {k : α → Reader β ε γ} {Q : α → Prop} {R : γ → Prop}
    (hp : Sound p Q) (hk : ∀ a, Q a → Sound (k a) R) : Sound (p >>= k) R := by
  constructor
  · intro buf pos hpos hpanic
    cases hread : p buf pos with
    | panic => exact hp.safe hpos hread
    | err e => simp [Reader.bind_eq, Reader.bind, hread, Result.bind] at hpanic
    | ok r =>
      obtain ⟨hstop, hQ⟩ := hp.within hpos hread
      simp only [Reader.bind_eq, Reader.bind, hread, Result.ok_bind] at hpanic
      exact (hk r.1 hQ).safe hstop hpanic
  · intro buf pos b stop hpos hread
    obtain ⟨r, hfirst, hsecond⟩ := Result.bind_eq_ok.1 hread
    obtain ⟨hstop, hQ⟩ := hp.within hpos hfirst
    exact (hk r.1 hQ).within hstop hsecond
  · intro buf pos b stop more hpos hread
    obtain ⟨r, hfirst, hsecond⟩ := Result.bind_eq_ok.1 hread
    obtain ⟨hstop, hQ⟩ := hp.within hpos hfirst
    have hfirst' := hp.append more hpos hfirst
    exact Result.bind_eq_ok.2 ⟨r, hfirst', (hk r.1 hQ).append more hstop hsecond⟩

/-- A field whose end depends on where it starts alone: not there, or cut out of the buffer. -/
theorem Sound.slice {p : Reader β ε (List β)} {Q : List β → Prop} (stop : ℕ → Option ℕ)
    (hnone : ∀ {buf pos}, stop pos = none → ∃ e, p buf pos = .err e)
    (hshort : ∀ {buf pos n}, stop pos = some n → buf.length < n → ∃ e, p buf pos = .err e)
    (hread : ∀ {buf pos n}, stop pos = some n → n ≤ buf.length →
      p buf pos = .ok ((buf.take n).drop pos, n) ∧ Q ((buf.take n).drop pos)) : Sound p Q := by
  have hcases : ∀ buf pos, (∃ e, p buf pos = .err e) ∨
      ∃ n, stop pos = some n ∧ n ≤ buf.length ∧ p buf pos = .ok ((buf.take n).drop pos, n) := by
    intro buf pos
    cases hstop : stop pos with
    | none => exact .inl (hnone hstop)
    | some n =>
      rcases Nat.lt_or_ge buf.length n with hlt | hge
      · exact .inl (hshort hstop hlt)
      · exact .inr ⟨n, rfl, hge, (hread hstop hge).1⟩
  constructor
  · intro buf pos _ hpanic
    obtain ⟨e, he⟩ | ⟨n, -, -, he⟩ := hcases buf pos <;> rw [he] at hpanic <;> cases hpanic
  · intro buf pos a n _ hok
    obtain ⟨e, he⟩ | ⟨n', hstop, hn, he⟩ := hcases buf pos
    · cases he.symm.trans hok
    · cases he.symm.trans hok
      exact ⟨hn, (hread hstop hn).2⟩
  intro buf pos a n more _ hok
  obtain ⟨e, he⟩ | ⟨n', hstop, hn, he⟩ := hcases buf pos
  · cases he.symm.trans hok
  · cases he.symm.trans hok
    have hlong : n ≤ (buf ++ more).length := by rw [length_append]; omega
    rw [(hread hstop hlong).1, take_append_of_le_length hn]

/-- A buffer is closed at its end and nowhere else. -/
structure Closes (finish : List β → ℕ → Result ε Unit) : Prop where
  ok_iff : ∀ {buf pos}, finish buf pos = .ok () ↔ pos = buf.length
  safe : ∀ {buf pos}, pos ≤ buf.length → finish buf pos ≠ .panic

theorem Closes.mapErr {ε' : Type} {f : ε → ε'} {finish : List β → ℕ → Result ε Unit} (hf : Closes finish) :
    Closes fun buf pos => (finish buf pos).mapErr f := by
  constructor
  · intro buf pos
    rw [← hf.ok_iff]
    cases finish buf pos <;> simp [Result.mapErr]
  intro buf pos hpos
  have hsafe := hf.safe hpos
  cases h : finish buf pos with
  | panic => exact absurd h hsafe
  | err e | ok u => nofun

section Closed

variable {finish : List β → ℕ → Result ε Unit} {p : Reader β ε α} {Q : α → Prop}

/-- The reader took the whole buffer. -/
theorem closed_eq_ok (hf : Closes finish) {buf : List β} {a : α} :
    p.closed finish buf = .ok a ↔ p buf 0 = .ok (a, buf.length) := by
  unfold Reader.closed
  rw [Result.bind_eq_ok]
  constructor
  · rintro ⟨⟨b, stop⟩, hread, hend⟩
    obtain ⟨u, hu, hab⟩ := Result.bind_eq_ok.1 hend
    have hstop : stop = buf.length := hf.ok_iff.1 hu
    cases hab
    rw [hread, hstop]
  · intro hread
    refine ⟨(a, buf.length), hread, ?_⟩
    rw [hf.ok_iff.2 rfl, Result.ok_bind]

theorem closed_ne_panic (hp : Sound p Q) (hf : Closes finish) (buf : List β) : p.closed finish buf ≠ .panic := by
  intro h
  unfold Reader.closed at h
  cases hread : p buf 0 with
  | panic => exact hp.safe (Nat.zero_le _) hread
  | err e => simp [hread, Result.bind] at h
  | ok r =>
    have hsafe := hf.safe (hp.within (Nat.zero_le _) hread).1
    rw [hread, Result.ok_bind] at h
    cases hr : finish buf r.2 with
    | panic => exact hsafe hr
    | err e => simp [hr, Result.bind] at h
    | ok u => simp [hr] at h

/-- **No accepted buffer is a strict prefix of another.** -/
theorem closed_unextendable (hp : Sound p Q) (hf : Closes finish) {buf more : List β}
    (hshort : (p.closed finish buf).isOk = true) (hlong : (p.closed finish (buf ++ more)).isOk = true) :
    more = [] := by
  obtain ⟨a, ha⟩ := Result.isOk_iff.1 hshort
  obtain ⟨b, hb⟩ := Result.isOk_iff.1 hlong
  have hread := (closed_eq_ok hf).1 ha
  have hread' := (closed_eq_ok hf).1 hb
  -- the longer buffer is read just as far
  have hsame := hp.append more (Nat.zero_le _) hread
  rw [hread', Result.ok.injEq, Prod.mk.injEq, length_append] at hsame
  have hlen := hsame.2
  exact eq_nil_of_length_eq_zero (by omega)

end Closed

/-! ## Readers of what was written -/

/-- The reader takes the symbols `w` for the value `a` wherever they stand, as long as they
end before `limit`. -/
def Reads (limit : ℕ) (p : Reader β ε α) (w : List β) (a : α) : Prop :=
  ∀ before after : List β, before.length + w.length < limit →
    p (before ++ w ++ after) before.length = .ok (a, before.length + w.length)

variable {limit : ℕ}

theorem Reads.lift (a : α) : Reads limit (Reader.lift (.ok a) : Reader β ε α) [] a := fun _ _ _ => rfl

theorem Reads.bind {p : Reader β ε α} {k : α → Reader β ε γ} {w v : List β} {a : α} {b : γ}
    (hp : Reads limit p w a) (hk : Reads limit (k a) v b) : Reads limit (p >>= k) (w ++ v) b := by
  intro before after hlt
  rw [length_append] at hlt
  have hfirst := hp before (v ++ after) (by omega)
  have hsecond := hk (before ++ w) after (by rw [length_append]; omega)
  rw [length_append] at hsecond
  have hassoc : before ++ (w ++ v) ++ after = before ++ w ++ (v ++ after) := by simp
  have hassoc' : before ++ w ++ v ++ after = before ++ w ++ (v ++ after) := by simp
  rw [hassoc'] at hsecond
  rw [Reader.bind_eq, Reader.bind, hassoc, hfirst, Result.ok_bind, hsecond, length_append, Nat.add_assoc]

/-- The bound on the whole can be used of the part. -/
theorem Reads.of_lt {p : Reader β ε α} {w : List β} {a : α} (h : w.length < limit → Reads limit p w a) :
    Reads limit p w a := fun before after hlt => h (by omega) before after hlt

theorem Reads.mapErr {ε' : Type} {f : ε → ε'} {p : Reader β ε α} {w : List β} {a : α} (hp : Reads limit p w a) :
    Reads limit (p.mapErr f) w a := by
  intro before after hlt
  rw [Reader.mapErr, hp before after hlt, Result.mapErr]

/-- A value computed from what was read. -/
theorem Reads.check {p : Reader β ε α} {f : α → Result ε γ} {w : List β} {a : α} {b : γ}
    (hp : Reads limit p w a) (hf : f a = .ok b) : Reads limit (p >>= fun x => Reader.lift (f x)) w b := by
  have hlift : Reads limit (Reader.lift (f a) : Reader β ε γ) [] b := by
    rw [hf]
    exact Reads.lift b
  have hboth := hp.bind (k := fun x => Reader.lift (f x)) hlift
  rwa [append_nil] at hboth

theorem Reads.map {p : Reader β ε α} {f : α → γ} {w : List β} {a : α} (hp : Reads limit p w a) :
    Reads limit (p >>= fun x => pure (f x)) w (f a) := hp.check (f := fun x => .ok (f x)) rfl

/-- **What was written is what is read.** -/
theorem closed_eq {finish : List β → ℕ → Result ε Unit} (hf : Closes finish) {p : Reader β ε α}
    {w : List β} {a : α} (hp : Reads limit p w a) (hlt : w.length < limit) : p.closed finish w = .ok a := by
  have hread := hp [] [] (by simpa using hlt)
  simp only [nil_append, append_nil, length_nil, Nat.zero_add] at hread
  exact (closed_eq_ok hf).2 hread

end Cursor
