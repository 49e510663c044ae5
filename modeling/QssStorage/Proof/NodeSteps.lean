import QssStorage.Conc.Among
import QssStorage.Proof.Frame
import QssStorage.Spec.Sessions

/-!
# What the steps of a server leave alone

Most steps of a session change one part of the node only: a lock, the store, or of the store the
rows, counters and trees. Programs over the store never touch the rest of the node.
-/

namespace QssStorage.Respcas

open Conc Prog
open Resp2 (Frame)

variable {α β : Type}
variable (name : Bytes) (g : Guard LockName)

/-! ## Locks -/

/-- A step that only moves locks. -/
def OnlyLocks (n n' : Node) : Prop := ∃ l, n' = { n with locks := l }

theorem OnlyLocks.refl (n : Node) : OnlyLocks n n := ⟨n.locks, rfl⟩

theorem askFor_steps : Steps OnlyLocks (askFor g) fun _ => True :=
  Steps.step fun e n a n' hf => by cases hf; exact ⟨⟨_, rfl⟩, trivial⟩

theorem dropLock_steps : Steps OnlyLocks (dropLock g) fun _ => True :=
  Steps.step fun e n a n' hf => by cases hf; exact ⟨⟨_, rfl⟩, trivial⟩

theorem takeLock_steps : Steps OnlyLocks (takeLock g) fun _ => True := by
  refine Steps.step fun e n a n' hf => ⟨?_, trivial⟩
  obtain ⟨l, -, heq⟩ := Option.map_eq_some_iff.1 hf
  cases heq
  exact ⟨l, rfl⟩

/-- What a part does that runs with a guard. -/
theorem holding_steps {G : Node → Node → Prop} (hG : ∀ n n', OnlyLocks n n' → G n n') (me : ℕ) (lock : LockName)
    (access : Access) {p : NodeProg α} {Q : α → Prop} (hp : Steps G p Q) : Steps G (holding me lock access p) Q := by
  have hask := (askFor_steps ⟨me, lock, access⟩).mono hG fun _ h => h
  have htake := (takeLock_steps ⟨me, lock, access⟩).mono hG fun _ h => h
  have hdrop := (dropLock_steps ⟨me, lock, access⟩).mono hG fun _ h => h
  refine Steps.seq hask fun _ => Steps.seq htake fun _ => Steps.bind (hp.mono (fun _ _ h => h) ?_)
  exact fun a ha => Steps.seq hdrop fun _ => ha

/-- What is said of a run that may take locks can be said of it with a guard. -/
theorem tallies_holding {Λ γ : Type} {R : Λ → Node → Node → Prop} {turn : γ → Turn Λ Node → γ} {J : Node → γ → Prop}
    {Q : α → Node → γ → Prop} (hJ : Stable turn R J) (hQ : ∀ a, Stable turn R (Q a))
    (hJl : ∀ n l g, J n g → J { n with locks := l } (turn g (.own n { n with locks := l })))
    (hQl : ∀ a n l g, Q a n g → Q a { n with locks := l } (turn g (.own n { n with locks := l })))
    (me : ℕ) (lock : LockName) (access : Access) {p : NodeProg α} (hp : Tallies R turn J p Q) :
    Tallies R turn J (holding me lock access p) Q := by
  have hmove : ∀ {K : Node → γ → Prop}, Stable turn R K →
      (∀ n l g, K n g → K { n with locks := l } (turn g (.own n { n with locks := l }))) → ∀ {q : NodeProg Unit},
      Steps OnlyLocks q (fun _ => True) → Tallies R turn K q fun _ n g => K n g := by
    intro K hK hKl q hq
    refine (tallies_quiet hK ?_ OnlyLocks.refl hq).mono fun _ _ _ h => h.2
    rintro n _ g ⟨l, rfl⟩ hn
    exact hKl n l g hn
  refine tallies_bind (hmove hJ hJl (askFor_steps _)) fun _ => tallies_bind (hmove hJ hJl (takeLock_steps _)) fun _ =>
    tallies_bind hp fun a => tallies_bind (hmove (hQ a) (hQl a) (dropLock_steps _)) fun _ => ?_
  exact tallies_ret (hQ a) fun _ _ h => h

/-! ## The store -/

/-- Of the store only the rows, the counters and the trees change. -/
def MetaOnly (n n' : Node) : Prop :=
  ∃ b u t d v, n' = { n with store := { n.store with buckets := b, usage := u, trees := t }, dropped := d, headerVersion := v }

theorem MetaOnly.refl (n : Node) : MetaOnly n n := ⟨_, _, _, _, _, rfl⟩

/-- The same of a store. -/
def MetaStep (s s' : Store) : Prop := ∃ b u t, s' = { s with buckets := b, usage := u, trees := t }

theorem MetaStep.refl (s : Store) : MetaStep s s := ⟨_, _, _, rfl⟩

theorem onMeta_steps {p : StoreProg (Except Err α)} (hp : Steps MetaStep p fun _ => True) :
    Steps MetaOnly (onMeta p) fun _ => True := by
  refine Steps.seq (Steps.zoom (fun n s' h => ?_) hp) fun _ => trivial
  obtain ⟨b, u, t, rfl⟩ := h
  exact ⟨b, u, t, _, _, rfl⟩

/-! ## Programs on rows and trees -/

section Leaves

variable {G : Node → Node → Prop} (hrefl : ∀ n, G n n)

include hrefl

theorem look_steps (f : Node → α) : Steps G (look f) fun _ => True :=
  Steps.step fun e n a n' hf => by cases hf; exact ⟨hrefl _, trivial⟩

theorem whenTree_steps (name : Bytes) {p : NodeProg (Except RespErr α)} (hp : Steps G p fun _ => True) :
    Steps G (whenTree name p) fun _ => True := by
  refine Steps.seq (look_steps hrefl _) fun found => ?_
  split
  · exact hp
  · exact trivial

/-- One read of the store. -/
theorem onMeta_readStore_steps (f : Store → Except Err α) : Steps G (onMeta (readStore f)) fun _ => True := by
  refine Steps.seq (Steps.step fun e n r n' hf => ⟨?_, trivial⟩) fun _ => trivial
  have hself : n.withStore n.store = n := by
    have hnone : (n.store.trees.entries.filter fun t => !n.store.hasTree t.1) = [] := by
      refine List.filter_eq_nil_iff.2 fun t ht => ?_
      have hget : n.store.trees.get t.1 = some t.2 := OrdMap.mem_entries.1 ht
      simp [Store.hasTree, hget]
    unfold Node.withStore
    rw [hnone, List.append_nil]
  dsimp only at hf
  split at hf <;> cases hf <;> rw [hself] <;> exact hrefl n

theorem getNamespaceMeta_steps (name : Bytes) : Steps G (getNamespaceMeta name) fun _ => True := by
  refine whenTree_steps hrefl name (Steps.thenTrue (onMeta_readStore_steps hrefl _) fun row => ?_)
  cases row <;> exact trivial

end Leaves

theorem openTree_steps : Steps MetaOnly (openTree name) fun _ => True := by
  refine Steps.step fun e n r n' hf => ⟨?_, trivial⟩
  have hopened : MetaOnly n (if isOwnTree name then n else n.withStore (n.store.setTree name (n.store.tree name))) := by
    split
    · exact .refl n
    · exact ⟨_, _, _, _, _, rfl⟩
  dsimp only at hf
  split at hf <;> cases hf
  · exact hopened
  · exact .refl n
  · exact hopened

theorem getNamespace_steps : Steps MetaOnly (getNamespace name) fun _ => True :=
  whenTree_steps .refl name (openTree_steps name)

/-- A transaction over rows, counters and trees. -/
theorem transact_meta {body : Store → Except Err (α × Store)} (h : ∀ s a s', body s = .ok (a, s') → MetaStep s s') :
    Steps MetaStep (transact body) fun _ => True := transact_steps' .refl h

theorem updateNamespaceMeta_steps (m : NamespaceMeta) : Steps MetaOnly (updateNamespaceMeta name m) fun _ => True :=
  whenTree_steps .refl name (onMeta_steps (transact_meta fun s a s' h => by cases h; exact ⟨_, _, _, rfl⟩))

theorem createNamespace_steps : Steps MetaOnly (createNamespace name) fun _ => True := by
  refine Steps.thenTrue (onMeta_steps ?_) fun inserted => ?_
  · unfold insertBucketIfAbsent
    split
    · exact trivial
    refine Steps.thenTrue (transact_meta fun s a s' h => ?_) fun claimed => ?_
    · unfold claimName at h
      split at h <;> cases h <;> exact ⟨_, _, _, rfl⟩
    · split
      · exact Steps.thenTrue (transact_meta fun s a s' h => by cases h; exact ⟨_, _, _, rfl⟩) fun _ => trivial
      · exact trivial
  · split
    · exact getNamespace_steps name
    · exact trivial

theorem deleteNamespace_steps : Steps MetaOnly (deleteNamespace name) fun _ => True := by
  refine whenTree_steps .refl name (onMeta_steps ?_)
  refine Steps.thenTrue (transact_meta fun s a s' h => by cases h; exact ⟨_, _, _, rfl⟩) fun _ =>
    Steps.thenTrue (transact_meta fun s a s' h => by cases h; exact ⟨_, _, _, rfl⟩) fun _ =>
      Steps.seq (p := bucketExists name) (Steps.step fun e s r s' hf => by cases hf; exact ⟨.refl _, trivial⟩) fun found => ?_
  split
  · exact transact_meta fun s a s' h => by cases h; exact ⟨_, _, _, rfl⟩
  · exact trivial

end QssStorage.Respcas
