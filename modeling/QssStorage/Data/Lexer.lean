import Mathlib

/-!
# Lexers over a stream that arrives in pieces

A lexer looks at the symbols received so far and says that they start with a token of a
given length, that more symbols are needed, or that they are wrong. `Stable` is what makes
its verdict independent of how the symbols arrive: a token is decided by its own symbols
alone, an error by the symbols that are wrong.

`Cut lex b ts r` says that `b` is the tokens `ts` followed by `r`.

* `Cut.append`: **what has been cut off stays cut off**, whatever arrives later.
-/

namespace Lexer

open List

/-- What a lexer says about the symbols it is given. -/
inductive Verdict (τ ε : Type) where
  | token (t : τ) (len : ℕ)
  | more
  | bad (e : ε)
deriving DecidableEq

variable {β τ υ ε : Type}

/-- The length of the token found, if any. -/
def Verdict.len? : Verdict τ ε → Option ℕ
  | .token _ n => some n
  | _ => none

/-- The verdict does not depend on what follows the symbols that decided it. -/
structure Stable (lex : List β → Verdict τ ε) : Prop where
  le_length : ∀ {b t n}, lex b = .token t n → n ≤ b.length
  own : ∀ {b t n} c, lex b = .token t n → lex (b.take n ++ c) = .token t n
  bad_append : ∀ {b e} c, lex b = .bad e → lex (b ++ c) = .bad e

/-- A stable lexer whose tokens are not empty. -/
structure Lawful (lex : List β → Verdict τ ε) : Prop extends Stable lex where
  pos : ∀ {b t n}, lex b = .token t n → 0 < n

namespace Stable

variable {lex : List β → Verdict τ ε}

theorem token_append (h : Stable lex) {b : List β} {t : τ} {n : ℕ} (c : List β)
    (hb : lex b = .token t n) : lex (b ++ c) = .token t n := by
  have hown := h.own (b.drop n ++ c) hb
  rwa [← append_assoc, take_append_drop] at hown

/-- On a strict part of a token the lexer asks for more. -/
theorem more_of_strict (h : Stable lex) {p q : List β} {t : τ} {n : ℕ}
    (hb : lex (p ++ q) = .token t n) (hlt : p.length < n) : lex p = .more := by
  cases hp : lex p with
  | more => rfl
  | bad e =>
    have hbad := h.bad_append q hp
    cases hb.symm.trans hbad
  | token t' n' =>
    have htok := h.token_append q hp
    have hle := h.le_length hp
    cases hb.symm.trans htok
    omega

end Stable

/-! ## Combinators -/

/-- The token `t`, of no symbols. -/
def ret (t : τ) : List β → Verdict τ ε := fun _ => .token t 0

/-- Wrong, whatever the symbols are. -/
def fail (e : ε) : List β → Verdict τ ε := fun _ => .bad e

/-- One lexer, and on what follows its token the next. -/
def bind (p : List β → Verdict τ ε) (k : τ → List β → Verdict υ ε) : List β → Verdict υ ε :=
  fun b =>
    match p b with
    | .more => .more
    | .bad e => .bad e
    | .token t n =>
      match k t (b.drop n) with
      | .more => .more
      | .bad e => .bad e
      | .token u m => .token u (n + m)

/-- The next `n` symbols. -/
def take (n : ℕ) : List β → Verdict (List β) ε :=
  fun b => if n ≤ b.length then .token (b.take n) n else .more

/-- `n` tokens in a row. -/
def times (p : List β → Verdict τ ε) : ℕ → List β → Verdict (List τ) ε
  | 0 => ret []
  | n + 1 => bind p fun t => bind (times p n) fun ts => ret (t :: ts)

/-- Where `sep` first occurs. -/
def find [DecidableEq β] (sep : List β) : List β → Option ℕ
  | [] => if sep = [] then some 0 else none
  | x :: b => if sep <+: x :: b then some 0 else (find sep b).map (· + 1)

/-- The symbols up to the first `sep`, which is consumed. -/
def upTo [DecidableEq β] (sep : List β) : List β → Verdict (List β) ε :=
  fun b =>
    match find sep b with
    | some i => .token (b.take i) (i + sep.length)
    | none => .more

theorem Stable.ret (t : τ) : Stable (ret t : List β → Verdict τ ε) where
  le_length h := by cases h; omega
  own c h := by cases h; rfl
  bad_append c h := by cases h

theorem Stable.fail (e : ε) : Stable (fail e : List β → Verdict τ ε) where
  le_length h := by cases h
  own c h := by cases h
  bad_append c h := by cases h; rfl

theorem bind_eq_token {p : List β → Verdict τ ε} {k : τ → List β → Verdict υ ε} {b : List β}
    {u : υ} {l : ℕ} :
    bind p k b = .token u l ↔ ∃ t n m, p b = .token t n ∧ k t (b.drop n) = .token u m ∧ l = n + m := by
  unfold bind
  cases hp : p b with
  | more | bad e => simp
  | token t n =>
    cases hk : k t (b.drop n) with
    | more | bad e => simp [hk]
    | token v m => simp [hk, eq_comm]

theorem bind_eq_bad {p : List β → Verdict τ ε} {k : τ → List β → Verdict υ ε} {b : List β}
    {e : ε} :
    bind p k b = .bad e ↔ p b = .bad e ∨ ∃ t n, p b = .token t n ∧ k t (b.drop n) = .bad e := by
  unfold bind
  cases hp : p b with
  | more | bad e' => simp
  | token t n =>
    cases hk : k t (b.drop n) with
    | more | bad e' | token v m => simp [hk]

theorem Stable.bind {p : List β → Verdict τ ε} {k : τ → List β → Verdict υ ε}
    (hp : Stable p) (hk : ∀ t, Stable (k t)) : Stable (bind p k) where
  le_length := by
    intro b u l h
    obtain ⟨t, n, m, h1, h2, rfl⟩ := bind_eq_token.1 h
    have hn := hp.le_length h1
    have hm := (hk t).le_length h2
    rw [length_drop] at hm
    omega
  own := by
    intro b u l c h
    obtain ⟨t, n, m, h1, h2, rfl⟩ := bind_eq_token.1 h
    have hn := hp.le_length h1
    have hsplit : b.take (n + m) = b.take n ++ (b.drop n).take m := take_add
    refine bind_eq_token.2 ⟨t, n, m, ?_, ?_, rfl⟩
    · rw [hsplit, append_assoc]
      exact hp.own _ h1
    · rw [hsplit, append_assoc, drop_left' (by simpa using hn)]
      exact (hk t).own c h2
  bad_append := by
    intro b e c h
    rcases bind_eq_bad.1 h with h1 | ⟨t, n, h1, h2⟩
    · exact bind_eq_bad.2 (.inl (hp.bad_append c h1))
    · refine bind_eq_bad.2 (.inr ⟨t, n, hp.token_append c h1, ?_⟩)
      rw [drop_append_of_le_length (hp.le_length h1)]
      exact (hk t).bad_append c h2

theorem Stable.take (n : ℕ) : Stable (take n : List β → Verdict (List β) ε) where
  le_length := by
    intro b t l h
    unfold Lexer.take at h
    split at h
    · cases h; assumption
    · cases h
  own := by
    intro b t l c h
    unfold Lexer.take at h ⊢
    split at h
    · cases h
      rw [if_pos (by simp; omega), take_left' (by simpa)]
    · cases h
  bad_append := by
    intro b e c h
    unfold Lexer.take at h
    split at h <;> cases h

theorem Stable.times {p : List β → Verdict τ ε} (hp : Stable p) : ∀ n, Stable (times p n)
  | 0 => Stable.ret []
  | n + 1 => hp.bind fun _ => (hp.times n).bind fun _ => Stable.ret _

section Find

variable [DecidableEq β] {sep : List β}

theorem find_le : ∀ {b : List β} {i : ℕ}, find sep b = some i → i + sep.length ≤ b.length
  | [], i, h => by
    unfold find at h
    split at h
    · cases h; simp_all
    · cases h
  | x :: b, i, h => by
    unfold find at h
    split at h
    next hpre => cases h; simpa using hpre.length_le
    next =>
      obtain ⟨j, hj, rfl⟩ := Option.map_eq_some_iff.1 h
      have := find_le hj
      simp only [length_cons]
      omega

/-- The first occurrence of `sep` is decided by the symbols up to its end. -/
theorem find_own : ∀ {b : List β} {i : ℕ} (c : List β), find sep b = some i →
    find sep (b.take (i + sep.length) ++ c) = some i
  | [], i, c, h => by
    unfold find at h
    split at h
    next hnil =>
      cases h
      subst hnil
      cases c <;> simp [find]
    next => cases h
  | x :: b, i, c, h => by
    have hle := find_le h
    unfold find at h
    split at h
    next hpre =>
      cases h
      obtain ⟨d, hd⟩ := hpre
      have htake : (x :: b).take (0 + sep.length) = sep := by
        rw [← hd, Nat.zero_add, take_left]
      rw [htake]
      cases hs : sep with
      | nil => cases c <;> simp [find]
      | cons y s => simp [find]
    next hpre =>
      obtain ⟨j, hj, rfl⟩ := Option.map_eq_some_iff.1 h
      have hlen : j + 1 + sep.length = j + sep.length + 1 := by omega
      rw [hlen, take_succ_cons, cons_append]
      -- an occurrence at the head would lie within the symbols kept
      have hno : ¬ sep <+: x :: (b.take (j + sep.length) ++ c) := by
        intro hp
        apply hpre
        have hin : (x :: b).take (j + sep.length + 1) <+: x :: b := List.take_prefix _ _
        have hkept : (x :: b).take (j + sep.length + 1) <+: x :: (b.take (j + sep.length) ++ c) := by
          rw [take_succ_cons, ← cons_append]
          exact prefix_append _ _
        have hshort : sep.length ≤ ((x :: b).take (j + sep.length + 1)).length := by
          simp only [length_take, length_cons] at hle ⊢
          omega
        exact (prefix_of_prefix_length_le hp hkept hshort).trans hin
      unfold find
      rw [if_neg hno, find_own c hj]
      rfl

theorem Stable.upTo (sep : List β) : Stable (upTo sep : List β → Verdict (List β) ε) where
  le_length := by
    intro b t n h
    unfold Lexer.upTo at h
    split at h
    next i hi => cases h; exact find_le hi
    next => cases h
  own := by
    intro b t n c h
    unfold Lexer.upTo at h
    split at h
    next i hi =>
      cases h
      have hle := find_le hi
      unfold Lexer.upTo
      rw [find_own c hi]
      simp only [Verdict.token.injEq, and_true]
      rw [take_append_of_le_length (by simp; omega), take_take]
      congr 1
      omega
    next => cases h
  bad_append := by
    intro b e c h
    unfold Lexer.upTo at h
    split at h <;> cases h

end Find

/-! ## Cutting a stream into tokens -/

/-- `b` is the tokens `ts`, and after them `r`. -/
inductive Cut (lex : List β → Verdict τ ε) : List β → List τ → List β → Prop where
  | nil (b : List β) : Cut lex b [] b
  | cons {b : List β} {t : τ} {n : ℕ} {ts : List τ} {r : List β} :
      lex b = .token t n → Cut lex (b.drop n) ts r → Cut lex b (t :: ts) r

/-- `b` does not start with a token. -/
def Stuck (lex : List β → Verdict τ ε) (b : List β) : Prop := ∀ t n, lex b ≠ .token t n

/-- `b` is tokens and nothing after them. -/
def Whole (lex : List β → Verdict τ ε) (b : List β) : Prop := ∃ ts, Cut lex b ts []

namespace Cut

variable {lex : List β → Verdict τ ε} {b c r r' : List β} {ts ts' : List τ}

theorem trans (h : Cut lex b ts r) (h' : Cut lex r ts' r') : Cut lex b (ts ++ ts') r' := by
  induction h with
  | nil b => exact h'
  | cons ht _ ih => exact .cons ht (ih h')

theorem of_append : ∀ {b : List β} {ts : List τ}, Cut lex b (ts ++ ts') r → ∃ m, Cut lex b ts m ∧ Cut lex m ts' r
  | b, [], h => ⟨b, .nil b, h⟩
  | b, t :: ts, h => by
    cases h with
    | cons ht hrest =>
      obtain ⟨m, hm, hr⟩ := of_append hrest
      exact ⟨m, .cons ht hm, hr⟩

/-- **What has been cut off stays cut off.** -/
theorem append (hl : Stable lex) (c : List β) (h : Cut lex b ts r) : Cut lex (b ++ c) ts (r ++ c) := by
  induction h with
  | nil b => exact .nil _
  | @cons b t n ts r ht _ ih =>
    refine .cons (hl.token_append c ht) ?_
    rwa [drop_append_of_le_length (hl.le_length ht)]

/-- The tokens are decided by their own symbols. -/
theorem split (hl : Stable lex) (h : Cut lex b ts r) : ∃ p, b = p ++ r ∧ Cut lex p ts [] := by
  induction h with
  | nil b => exact ⟨[], rfl, .nil _⟩
  | @cons b t n ts r ht _ ih =>
    obtain ⟨p, hp, hcut⟩ := ih
    have hle := hl.le_length ht
    refine ⟨b.take n ++ p, ?_, .cons (hl.own p ht) ?_⟩
    · rw [append_assoc, ← hp, take_append_drop]
    · rwa [drop_left' (by simpa using hle)]

theorem of_whole (hl : Stable lex) (h : Cut lex b ts []) (r : List β) : Cut lex (b ++ r) ts r := by
  simpa using h.append hl r

theorem length_le (hl : Stable lex) (h : Cut lex b ts r) : r.length ≤ b.length := by
  obtain ⟨p, rfl, -⟩ := h.split hl
  simp

/-- Two cuts of one stream: one goes on from where the other ends. -/
theorem compare (h : Cut lex b ts r) (h' : Cut lex b ts' r') :
    (∃ us, ts' = ts ++ us ∧ Cut lex r us r') ∨ ∃ us, ts = ts' ++ us ∧ Cut lex r' us r := by
  induction h generalizing ts' with
  | nil b => exact .inl ⟨ts', rfl, h'⟩
  | cons ht hrest ih =>
    cases h' with
    | nil => exact .inr ⟨_, rfl, .cons ht hrest⟩
    | cons ht' hrest' =>
      rw [ht] at ht'
      cases ht'
      rcases ih hrest' with ⟨us, rfl, hus⟩ | ⟨us, rfl, hus⟩
      · exact .inl ⟨us, rfl, hus⟩
      · exact .inr ⟨us, rfl, hus⟩

theorem eq_nil_of_stuck (hs : Stuck lex b) (h : Cut lex b ts r) : ts = [] ∧ r = b := by
  cases h with
  | nil => exact ⟨rfl, rfl⟩
  | cons ht _ => exact absurd ht (hs _ _)

/-- A cut up to a stuck rest goes on from every other cut. -/
theorem extends_of_stuck (h : Cut lex b ts r) (hs : Stuck lex r) (h' : Cut lex b ts' r') :
    ∃ us, ts = ts' ++ us ∧ Cut lex r' us r := by
  rcases h.compare h' with ⟨us, hts, hus⟩ | hres
  · obtain ⟨rfl, rfl⟩ := eq_nil_of_stuck hs hus
    exact ⟨[], by simpa using hts.symm, .nil _⟩
  · exact hres

/-- Every stream is tokens and a rest that does not start with one. -/
theorem exists_stuck (hl : Lawful lex) (b : List β) : ∃ ts r, Cut lex b ts r ∧ Stuck lex r := by
  -- each token takes at least one symbol
  induction hn : b.length using Nat.strongRecOn generalizing b with
  | _ k ih =>
    cases hv : lex b with
    | token t n =>
      have hpos := hl.pos hv
      have hle := hl.le_length hv
      obtain ⟨ts, r, hcut, hs⟩ := ih (b.drop n).length (by simp; omega) (b.drop n) rfl
      exact ⟨t :: ts, r, .cons hv hcut, hs⟩
    | more | bad e => exact ⟨[], b, .nil b, fun t n h => by rw [hv] at h; cases h⟩

end Cut

/-! What holds wherever a token can start is checked token by token. -/

section Starts

variable {lex : List β → Verdict τ ε} {b : List β} {P : List β → Prop}

theorem stuck_of_len? (h : (lex b).len? = none) : Stuck lex b := by
  intro t n ht
  rw [ht] at h
  cases h

theorem starts_of_stuck (hl : Stable lex) (h : (lex b).len? = none) (hb : P b) : ∀ p t, b = p ++ t → Whole lex p → P t := by
  rintro p t rfl ⟨ts, hts⟩
  obtain ⟨-, ht⟩ := Cut.eq_nil_of_stuck (stuck_of_len? h) (hts.of_whole hl t)
  rw [ht]
  exact hb

theorem starts_of_token (hl : Stable lex) {n : ℕ} (h : (lex b).len? = some n) (hb : P b)
    (hrest : ∀ p t, b.drop n = p ++ t → Whole lex p → P t) :
    ∀ p t, b = p ++ t → Whole lex p → P t := by
  rintro p t rfl ⟨ts, hts⟩
  cases hts with
  | nil => exact hb
  | @cons _ u m us _ hv hcut =>
    have hle := hl.le_length hv
    rw [hl.token_append t hv] at h
    cases h
    refine hrest _ t ?_ ⟨_, hcut⟩
    rw [drop_append_of_le_length hle]

end Starts

end Lexer
