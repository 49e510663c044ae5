import QssStorage.Data.Paging
import QssStorage.Data.Walks
import QssStorage.Spec.TreeWalk

/-!
# What a walk over a changing tree sees

The two iterators of a tree open their range anew at every call. Their calls are the cursor steps
of `OrdMap` (`iterKv_eq`, `iterKvBackward_eq`), so the walks of the other modules are walks by
them. Each call is the nearest entry beyond the last key (`iterKv_seeks`, `iterKvBackward_seeks`),
whatever was stored and removed since the call before.

* `tree_walks`: **a walk gives its keys in order, each of them once and only while it is there,
  and no key that is there all the time is left out.**
-/

namespace QssStorage

open Walks

variable {V : Type}
variable {r : Bytes → Bytes → Prop} {next : OrdMap Bytes V → Option Bytes → Option (Bytes × V)} (t : OrdMap Bytes V)
  (lastKey : Option Bytes)

/-- The bytes after `k` are those from `k ++ [0]` on. -/
theorem iterKv_eq : iterKv t lastKey = t.nextAfter lastKey := by
  rw [OrdMap.nextAfter_eq]
  unfold iterKv range
  cases lastKey with
  | none =>
    dsimp only
    have hall : ∀ e ∈ t.entries, (Bound.isBelow (.included []) e.1 && Bound.isAbove .unbounded e.1) = true := by
      intro e _
      have hle : ([] : Bytes) ≤ e.1 := not_lt.1 (List.not_lt_nil _)
      simp [Bound.isBelow, Bound.isAbove, hle]
    rw [List.filter_eq_self.2 hall]
    rfl
  | some k =>
    dsimp only
    refine congrArg List.head? (List.filter_congr fun e _ => ?_)
    have hstep : k ++ [0] ≤ e.1 ↔ k < e.1 := Paging.append_bot_le
    simp [Bound.isBelow, Bound.isAbove, hstep]

theorem iterKvBackward_eq : iterKvBackward t lastKey = t.prevBefore lastKey := by
  unfold iterKvBackward range
  cases lastKey with
  | none => simp [Bound.isBelow, Bound.isAbove, OrdMap.prevBefore]
  | some k => exact congrArg List.getLast? (List.filter_congr fun e _ => by simp [Bound.isBelow, Bound.isAbove])

/-! ## One call -/

/-- The first of the entries that a test lets through, in a list in the order `r`. -/
theorem head_filter {l : List (Bytes × V)} (hl : l.Pairwise fun a b => r a.1 b.1) {p : Bytes → Prop} [DecidablePred p]
    {e : Bytes × V} (h : (l.filter fun x => p x.1).head? = some e) :
    e ∈ l ∧ p e.1 ∧ ∀ x ∈ l, p x.1 → x = e ∨ r e.1 x.1 := by
  obtain ⟨rest, hrest⟩ := List.head?_eq_some_iff.1 h
  have he : e ∈ l.filter fun x => p x.1 := hrest ▸ List.mem_cons_self
  have hsorted : (e :: rest).Pairwise fun a b => r a.1 b.1 := hrest ▸ hl.filter _
  refine ⟨(List.mem_filter.1 he).1, of_decide_eq_true (List.mem_filter.1 he).2, fun x hx hp => ?_⟩
  have hx' : x ∈ e :: rest := hrest ▸ List.mem_filter.2 ⟨hx, decide_eq_true hp⟩
  exact (List.mem_cons.1 hx').imp id ((List.pairwise_cons.1 hsorted).1 x)

/-- An iterator that takes the first entry beyond its cursor. -/
theorem seeks_of_head (htrans : ∀ a b c, r a b → r b c → r a c) {inOrder : OrdMap Bytes V → List (Bytes × V)}
    (hmem : ∀ {t k v}, (k, v) ∈ inOrder t ↔ t.get k = some v)
    (hsorted : ∀ t, (inOrder t).Pairwise fun a b => r a.1 b.1) (beyond : Option Bytes → Bytes → Prop)
    [∀ cursor, DecidablePred (beyond cursor)] (hbeyond : ∀ cursor k, beyond cursor k ↔ Beyond r cursor k)
    (hnext : ∀ t cursor, next t cursor = ((inOrder t).filter fun x => beyond cursor x.1).head?) : Seeks r next := by
  refine ⟨htrans, fun {t cursor e} he => ?_, fun {t cursor e} he k hk hthere => ?_, fun {t cursor} he k hk => ?_⟩
  · rw [hnext] at he
    obtain ⟨hin, hp, -⟩ := head_filter (hsorted t) he
    exact ⟨hmem.1 hin, (hbeyond _ _).1 hp⟩
  · rw [hnext] at he
    obtain ⟨v, hget⟩ := Option.isSome_iff_exists.1 hthere
    obtain ⟨-, -, hfirst⟩ := head_filter (hsorted t) he
    exact (hfirst (k, v) (hmem.2 hget) ((hbeyond _ _).2 hk)).imp (congrArg Prod.fst) id
  rw [hnext, List.head?_eq_none_iff] at he
  cases hget : t.get k with
  | none => rfl
  | some v =>
    have hin := List.filter_eq_nil_iff.1 he (k, v) (hmem.2 hget)
    exact absurd (decide_eq_true ((hbeyond cursor k).2 hk)) hin

theorem iterKv_seeks : Seeks (· < ·) (iterKv (V := V)) := by
  refine seeks_of_head (r := (· < ·)) (fun _ _ _ => lt_trans) OrdMap.mem_entries (fun t => t.sorted)
    (fun cursor k => ∀ a ∈ cursor, a < k) (fun _ _ => Iff.rfl) fun t cursor => ?_
  rw [iterKv_eq, OrdMap.nextAfter_eq]
  cases cursor with
  | none => simp [OrdMap.behind]
  | some k => exact congrArg List.head? (List.filter_congr fun e _ => by simp)

theorem iterKvBackward_seeks : Seeks (· > ·) (iterKvBackward (V := V)) := by
  refine seeks_of_head (r := (· > ·)) (fun _ _ _ h h' => lt_trans h' h)
    (List.mem_reverse.trans OrdMap.mem_entries) (fun t => List.pairwise_reverse.2 t.sorted)
    (fun cursor k => ∀ a ∈ cursor, k < a) (fun _ _ => Iff.rfl) fun t cursor => ?_
  rw [iterKvBackward_eq, OrdMap.prevBefore_eq]
  cases cursor with
  | none => simp [OrdMap.before]
  | some k => exact congrArg List.head? (List.filter_congr fun e _ => by simp)

/-! ## A whole walk -/

/-- What a walk from a start makes of the tree and of what happens to it meanwhile. -/
structure WalksWell (r : Bytes → Bytes → Prop) (t : OrdMap Bytes V) (start : Option Bytes) (evs : List (Walks.Event Bytes V))
    (cs : List (Call Bytes V)) : Prop where
  inOrder : (given cs).Pairwise r
  beyond : ∀ k ∈ given cs, ∀ a ∈ start, r a k
  present : ∀ c ∈ cs, ∀ k v, c.answer = some (k, v) → c.found.get k = some v
  complete : (∃ c ∈ cs, c.answer = none) → ∀ k, (∀ a ∈ start, r a k) → (∀ m ∈ maps t evs, (m.get k).isSome) →
    (given cs).count k = 1

theorem walksWell_of_seeks [Std.Irrefl r] (hs : Seeks r next) (t : OrdMap Bytes V) (start : Option Bytes)
    (evs : List (Walks.Event Bytes V)) : WalksWell r t start evs (calls next t start evs) := by
  obtain ⟨hsorted, hbeyond⟩ := calls_beyond hs evs t start
  have hnodup : (given (calls next t start evs)).Nodup := by
    refine hsorted.imp fun {a b} hab heq => ?_
    subst heq
    exact Std.Irrefl.irrefl a hab
  refine ⟨hsorted, hbeyond, fun c hc k v hanswer => calls_present hs evs t start c hc (k, v) hanswer, ?_⟩
  intro hends k hk hstays
  exact List.count_eq_one_of_mem hnodup (calls_complete hs evs t start hk hstays hends)

/-- **Both walks give their keys in order, each once and only while it is there, and no key that is there
all the time is left out**, whatever is stored and removed between their calls. -/
theorem tree_walks (t : OrdMap Bytes V) (start : Option Bytes) (evs : List (Walks.Event Bytes V)) :
    WalksWell (· < ·) t start evs (calls iterKv t start evs) ∧
      WalksWell (· > ·) t start evs (calls iterKvBackward t start evs) :=
  ⟨walksWell_of_seeks iterKv_seeks t start evs, walksWell_of_seeks iterKvBackward_seeks t start evs⟩

end QssStorage
