import QssStorage.Proof.Balance

/-!
# Releasing references

A release consumes the references it was given (`releaseBlocks_sheds`), by the rules of the
steps that can fail: a transaction, a read, an attempt.
-/

namespace QssStorage

open Conc Hand

variable {α : Type} {id : BlockId} {s : Store} {blk : Block} {Q : Except Err α → Hand → Prop}

variable {n : ℕ} {m : Mode} {L : Multiset ℕ} {s0 : Store} {x : Hand}
variable {g r : Hand} {body : Store → Except Err (α × Store)} {owner : Owner} (c : Config)

/-- What an operation may leave in hand for good: nothing, if nothing failed. -/
def Leak (m : Mode) (g : Hand) : Prop := g.views = 0 ∧ (m.Clean → g = 0)

theorem leak_zero : Leak m 0 := ⟨rfl, fun _ => rfl⟩

theorem Leak.add {a b : Hand} (ha : Leak m a) (hb : Leak m b) : Leak m (a + b) := by
  refine ⟨by rw [add_views, ha.1, hb.1]; rfl, fun hm => ?_⟩
  rw [ha.2 hm, hb.2 hm, add_zero]

theorem leak_of_not_clean (hv : g.views = 0) (h : ¬ m.Clean) : Leak m g :=
  ⟨hv, fun hm => absurd hm h⟩

theorem not_clean {e : Choice} (he : m.allow e) (h : ¬ e.Fine) : ¬ m.Clean := fun hm => h (hm.2 e he)

/-! ## Steps that can fail -/

/-- The answers `A` are allowed, and no commit fails under them if `F`. -/
structure Grants (m : Mode) (F : Prop) (A : Store → Choice → Prop) : Prop where
  allowed : ∀ s e, A s e → m.allow e
  commits : F → ∀ s e, A s e → e.commit = .ok

theorem grants_any : Grants m False fun _ => m.allow := ⟨fun _ _ h => h, False.elim⟩

/-- A transaction may fail. -/
def Fallible (m : Mode) (F : Prop) : Prop := ¬ m.Clean ∧ ¬ F

/-- What an operation may leave in hand, no reference if `F`. -/
def Sheds (m : Mode) (F : Prop) (g : Hand) : Prop := Leak m g ∧ (F → g.refs = 0)

variable {F : Prop} {A : Store → Choice → Prop} {p : StoreProg α}

theorem sheds_zero : Sheds m F 0 := ⟨leak_zero, fun _ => rfl⟩

theorem Sheds.add {a b : Hand} (ha : Sheds m F a) (hb : Sheds m F b) : Sheds m F (a + b) :=
  ⟨ha.1.add hb.1, fun h => by rw [add_refs, ha.2 h, hb.2 h, add_zero]⟩

theorem Fallible.sheds (h : Fallible m F) (hv : g.views = 0) : Sheds m F g :=
  ⟨leak_of_not_clean hv h.1, fun hF => absurd hF h.2⟩

theorem Grants.on (ha : Grants m F A) {Q : α → Hand → Prop} (h : wp (ledger n m) p Q g) :
    wp (ledgerOn n m A) p Q g := wp_weaken ha.allowed (fun _ _ h => h) h

/-- **One transaction.** A body that fails changes nothing; a commit that fails may or may
not have been applied, and then something did fail. -/
theorem wp_transact_on (ha : Grants m F A) (hx : x.views = 0)
    (herr : ∀ s r e, A s e → Core m s (x + r) → Agree n L s0 s → ∀ err, body s = .error err → Q (.error err) (hold L s0 + x))
    (hfail : Fallible m F → Q (.error .commit) (hold L s0 + x))
    (hok : ∀ s r, Core m s (x + r) → Agree n L s0 s → ∀ a s', body s = .ok (a, s') → s'.Fits →
      (∀ b, stripeOf n b ∉ L → SameBlock s s' b) ∧
        ∃ x' s1, x'.views = 0 ∧ Agree n L s1 s' ∧ Core m s' (x' + r) ∧ Q (.ok a) (hold L s1 + x') ∧
          (Fallible m F → Q (.error .commit) (hold L s1 + x'))) :
    wp (ledgerOn n m A) (transact body) Q (hold L s0 + x) := by
  refine wp_step hx ?_
  intro s r hc hag e he v s' hf hfits
  have same : ∀ s : Store, ∀ b, stripeOf n b ∉ L → SameBlock s s b := fun s b _ => SameBlock.refl s b
  have hfallible : e.commit ≠ .ok → Fallible m F := fun hne =>
    ⟨not_clean (ha.allowed s e he) fun hfine => hne hfine.1, fun hF => hne (ha.commits hF s e he)⟩
  cases hb : body s with
  | error err =>
    simp only [hb, Option.some.injEq, Prod.mk.injEq] at hf
    obtain ⟨rfl, rfl⟩ := hf
    exact ⟨same _, x, s0, hx, hag, hc, herr _ r e he hc hag err hb⟩
  | ok as =>
    obtain ⟨a, s2⟩ := as
    cases ho : e.commit with
    | ok =>
      simp only [hb, ho, Option.some.injEq, Prod.mk.injEq] at hf
      obtain ⟨rfl, rfl⟩ := hf
      obtain ⟨hout, x', s1, hx', hin, hcore, hQ, -⟩ := hok s r hc hag a _ hb hfits
      exact ⟨hout, x', s1, hx', hin, hcore, hQ⟩
    | failed =>
      simp only [hb, ho, Option.some.injEq, Prod.mk.injEq] at hf
      obtain ⟨rfl, rfl⟩ := hf
      exact ⟨same _, x, s0, hx, hag, hc, hfail (hfallible (by simp [ho]))⟩
    | applied =>
      simp only [hb, ho, Option.some.injEq, Prod.mk.injEq] at hf
      obtain ⟨rfl, rfl⟩ := hf
      obtain ⟨hout, x', s1, hx', hin, hcore, -, hQ⟩ := hok s r hc hag a _ hb hfits
      exact ⟨hout, x', s1, hx', hin, hcore, hQ (hfallible (by simp [ho]))⟩

/-- The same, whatever the environment answers. -/
theorem wp_transact (hx : x.views = 0)
    (herr : ∀ s r, Core m s (x + r) → Agree n L s0 s → ∀ err, body s = .error err → Q (.error err) (hold L s0 + x))
    (hfail : ¬ m.Clean → Q (.error .commit) (hold L s0 + x))
    (hok : ∀ s r, Core m s (x + r) → Agree n L s0 s → ∀ a s', body s = .ok (a, s') → s'.Fits →
      (∀ b, stripeOf n b ∉ L → SameBlock s s' b) ∧
        ∃ x' s1, x'.views = 0 ∧ Agree n L s1 s' ∧ Core m s' (x' + r) ∧ Q (.ok a) (hold L s1 + x') ∧
          (¬ m.Clean → Q (.error .commit) (hold L s1 + x'))) :
    wp (ledger n m) (transact body) Q (hold L s0 + x) := by
  have hclean : (¬ m.Clean) = Fallible m False := propext ⟨fun h => ⟨h, id⟩, And.left⟩
  rw [hclean] at hfail
  simp only [hclean] at hok
  exact wp_transact_on grants_any hx (fun s r _ _ => herr s r) hfail hok

/-- One transaction by a thread that holds no stripe, and that leaves blocks and files alone. -/
theorem wp_transact_free (hx : x.views = 0)
    (herr : ∀ s r, Core m s (x + r) → ∀ err, body s = .error err → Q (.error err) x)
    (hfail : ¬ m.Clean → Q (.error .commit) x)
    (hok : ∀ s r, Core m s (x + r) → ∀ a s', body s = .ok (a, s') →
      (∀ b, SameBlock s s' b) ∧
        ∃ x', x'.views = 0 ∧ Core m s' (x' + r) ∧ Q (.ok a) x' ∧ (¬ m.Clean → Q (.error .commit) x')) :
    wp (ledger n m) (transact body) Q x := by
  have key : wp (ledger n m) (transact body) Q (hold 0 Store.empty + x) := by
    refine wp_transact hx ?_ ?_ ?_
    · intro s r hc _ err hb
      rw [hold_zero, zero_add]; exact herr s r hc err hb
    · intro hm
      rw [hold_zero, zero_add]; exact hfail hm
    intro s r hc _ a s' hb _
    obtain ⟨hsame, x', hx', hcore, hQ, hQ'⟩ := hok s r hc a s' hb
    refine ⟨fun b _ => hsame b, x', s', hx', fun b hb => by simp at hb, hcore, ?_, ?_⟩
    · rw [hold_zero, zero_add]; exact hQ
    · intro hm; rw [hold_zero, zero_add]; exact hQ' hm
  rwa [hold_zero, zero_add] at key

/-- One read. -/
theorem wp_readStore {body : Store → Except Err α}
    (hx : x.views = 0) (hfail : ¬ m.Clean → Q (.error .io) (hold L s0 + x))
    (hok : ∀ s r, Core m s (x + r) → Agree n L s0 s → Q (body s) (hold L s0 + x)) :
    wp (ledger n m) (readStore body) Q (hold L s0 + x) := by
  refine wp_step hx ?_
  intro s r hc hag e he v s' hf _
  have hs' : s' = s := by cases ho : e.read <;> simp_all
  subst hs'
  refine ⟨fun b _ => SameBlock.refl _ b, x, s0, hx, hag, hc, ?_⟩
  cases ho : e.read with
  | true => simp only [ho, if_true, Option.some.injEq, Prod.mk.injEq, and_true] at hf; subst hf; exact hok _ r hc hag
  | false =>
    simp only [ho, Bool.false_eq_true, if_false, Option.some.injEq, Prod.mk.injEq, and_true] at hf; subst hf
    exact hfail (not_clean he (by simp [Choice.Fine, ho]))

theorem wp_readStore_free {body : Store → Except Err α}
    (hx : x.views = 0) (hfail : ¬ m.Clean → Q (.error .io) x)
    (hok : ∀ s r, Core m s (x + r) → Q (body s) x) : wp (ledger n m) (readStore body) Q x := by
  have key : wp (ledger n m) (readStore body) Q (hold 0 Store.empty + x) := by
    refine wp_readStore hx ?_ ?_
    · intro hm; rw [hold_zero, zero_add]; exact hfail hm
    · intro s r hc _; rw [hold_zero, zero_add]; exact hok s r hc
  rwa [hold_zero, zero_add] at key

/-- A step outside the shared state. -/
theorem wp_attempt {Q : Except Err Unit → Hand → Prop} (hx : x.views = 0)
    (hfail : ¬ m.Clean → Q (.error .io) (hold L s0 + x)) (hok : Q (.ok ()) (hold L s0 + x)) :
    wp (ledger n m) attempt Q (hold L s0 + x) := by
  refine wp_step hx ?_
  intro s r hc hag e he v s' hf _
  cases ho : e.sync with
  | true =>
    simp only [ho, if_true, Option.some.injEq, Prod.mk.injEq] at hf
    obtain ⟨rfl, rfl⟩ := hf
    exact ⟨fun b _ => SameBlock.refl _ b, x, s0, hx, hag, hc, hok⟩
  | false =>
    simp only [ho, Bool.false_eq_true, if_false, Option.some.injEq, Prod.mk.injEq] at hf
    obtain ⟨rfl, rfl⟩ := hf
    exact ⟨fun b _ => SameBlock.refl _ b, x, s0, hx, hag, hc, hfail (not_clean he (by simp [Choice.Fine, ho]))⟩

theorem wp_readClock {Q : ℕ → Hand → Prop} (hx : x.views = 0) (hok : ∀ now, Q now x) :
    wp (ledgerOn n m A) readClock Q x := by
  refine wp_step_free hx ?_
  intro s r hc e _ v s' hf
  cases hf
  exact ⟨SameBlock.refl _, x, hx, hc, hok _⟩

theorem wp_chooseDepth {Q : ℕ → Hand → Prop} (hx : x.views = 0)
    (hok : ∀ d, diskDepth id d = d → Q d (hold L s0 + x)) :
    wp (ledger n m) (chooseDepth id) Q (hold L s0 + x) := by
  refine wp_step hx ?_
  intro s r hc hag e _ v s' hf _
  cases hf
  refine ⟨fun b _ => SameBlock.refl _ b, x, s0, hx, hag, hc, hok _ ?_⟩
  have := id.len_pos
  unfold diskDepth
  omega

/-! ## One decrement -/

/-- The record of the block that `decrement_block_rc` meets. -/
theorem decrementTx_ok {s s' : Store} {r : BlockDecrement} (hb : s.blocks.get id = some (.record blk))
    (hpos : 1 ≤ blk.rc) (h : decrementTx owner id s = .ok (r, s')) :
    (blk.rc = 1 ∧ r = .removed blk ∧ s' = { s with blocks := s.blocks.erase id, log := s.log ++ [.released owner id] }) ∨
    (blk.rc ≠ 1 ∧ r = .decremented { blk with rc := blk.rc - 1 } ∧
      s' = { s with blocks := s.blocks.insert id (.record { blk with rc := blk.rc - 1 })
                    log := s.log ++ [.released owner id] }) := by
  unfold decrementTx decrementBlockRc at h
  simp only [hb] at h
  by_cases hrc : blk.rc = 1
  · left
    simp only [hrc, if_true, Except.ok.injEq, Prod.mk.injEq] at h
    exact ⟨hrc, h.1.symm, h.2.symm⟩
  · right
    simp only [hrc, if_false, decrementRefcount_of_pos hpos, Except.ok.injEq, Prod.mk.injEq] at h
    exact ⟨hrc, h.1.symm, h.2.symm⟩

theorem decrementTx_not_error {err : Err} (hb : s.blocks.get id = some (.record blk)) : decrementTx owner id s ≠ .error err := by
  unfold decrementTx decrementBlockRc
  simp only [hb]
  by_cases hrc : blk.rc = 1
  · simp [hrc]
  · simp [hrc]

/-- Only the blocks of the stripes held may change: a step on one block stays inside. -/
theorem sameBlock_outside (hL : stripeOf n id ∈ L) {s s' : Store} {b : BlockId}
    (hb : b ≠ id → s'.blocks.get b = s.blocks.get b)
    (hf : b ≠ id → ∀ d, s'.files.get (toLex (b, d)) = s.files.get (toLex (b, d))) (hn : stripeOf n b ∉ L) :
    SameBlock s s' b := by
  have hne : b ≠ id := by rintro rfl; exact hn hL
  exact ⟨hb hne, hf hne⟩

/-- The last reference goes: the file becomes a stray. -/
theorem Core.decrement_last (hc : Core m s (ofRefs {id} + r)) (hblk : s.blocks.get id = some (.record blk))
    (h1 : blk.rc = 1) :
    Core m { s with blocks := s.blocks.erase id } (ofStrays {(id, diskDepth id blk.depth)} + r) := by
  refine hc.dropBlock id (by rw [rcOf_record hblk, h1]) ?_ ?_ ?_ rfl rfl
  · intro b
    by_cases hbid : b = id
    · subst hbid; simp [ofRefs, ofStrays, add_comm]
    · simp [ofRefs, ofStrays, hbid]
  · rintro d ⟨blk', h2, -, rfl⟩
    cases hblk.symm.trans h2
    simp [ofStrays]
  · intro p hp; simp [ofRefs] at hp; simp [hp]

/-- A reference goes and others stay. -/
theorem Core.decrement (hc : Core m s (ofRefs {id} + r)) (hblk : s.blocks.get id = some (.record blk))
    (h1 : blk.rc ≠ 1) (hpos : 1 ≤ blk.rc) :
    Core m { s with blocks := s.blocks.insert id (.record { blk with rc := blk.rc - 1 }) } (0 + r) := by
  refine hc.putBlock id _ ?_ ?_ ?_ ?_ ?_ rfl rfl
  · intro b
    by_cases hbid : b = id
    · subst hbid; simp [ofRefs, rcOf_record hblk]; omega
    · simp [ofRefs, hbid]
  · intro hdeg; exact hc.placed id _ ⟨blk, hblk, hdeg, rfl⟩
  · rintro d ⟨blk', h2, h3, rfl⟩
    rw [hblk] at h2; cases h2
    exact ⟨h3, rfl⟩
  · intro b d hp
    left; simpa [ofRefs] using hp
  · intro hm
    obtain ⟨blk', h2, h3, -⟩ := (hc.strict hm).blocks id _ hblk
    cases h2
    exact ⟨h3, by simp only; omega⟩

/-- The file of a block without a record can go: the record is gone and stays gone while
the stripe is held. -/
theorem unlinkBlock_ok {depth : ℕ} (hL : stripeOf n id ∈ L) (hnone : s0.blocks.get id = none) :
    wp (ledger n m) (unlinkBlock id depth) (fun _ g => ∃ s1 l, Sheds m F l ∧ g = hold L s1 + l)
      (hold L s0 + ofStrays {(id, diskDepth id depth)}) := by
  refine wp_step rfl ?_
  intro s r hc hag e he v s' hf _
  have hdead : ¬ LiveAt s id (diskDepth id depth) := by
    rintro ⟨blk', h2, -⟩
    rw [(hag id hL).1, hnone] at h2
    cases h2
  by_cases ho : e.unlink = true
  · simp only [ho, if_true, Option.some.injEq, Prod.mk.injEq] at hf
    obtain ⟨rfl, rfl⟩ := hf
    refine ⟨?_, 0, _, rfl, fun b _ => SameBlock.refl _ b, ?_, _, 0, sheds_zero, rfl⟩
    · intro b
      refine sameBlock_outside hL (fun _ => rfl) fun hne d => OrdMap.get_erase_of_ne _ ?_
      intro heq
      exact hne (congrArg Prod.fst (toLex.injective heq))
    refine hc.dropFile id _ hdead ?_ rfl rfl rfl
    intro p hp
    simp only [add_strays, ofStrays, Multiset.mem_add, Multiset.mem_singleton] at hp
    rcases hp with hp | hp
    · exact .inr hp
    · left; simpa using hp
  · have hs' : s' = s := by
      cases ho' : e.unlink <;> simp_all
    subst hs'
    exact ⟨fun b _ => SameBlock.refl _ b, _, _, rfl, hag, hc, _, _,
      ⟨leak_of_not_clean rfl (not_clean he (by simp [Choice.Fine, ho])), fun _ => rfl⟩, rfl⟩

/-- **One reference goes**, and with the last one the record and then the file. -/
theorem decrementOneBlock_ok (ha : Grants m F A) (owner : Owner) (id : BlockId) (hL : stripeOf n id ∈ L) :
    wp (ledgerOn n m A) (decrementOneBlock owner id) (fun _ g => ∃ s1 l, Sheds m F l ∧ g = hold L s1 + l)
      (hold L s0 + ofRefs {id}) := by
  -- the reference in hand is counted, so there is a record to decrement
  have hrec : ∀ s r, Core m s (ofRefs {id} + r) → ∃ blk, s.blocks.get id = some (.record blk) ∧ 1 ≤ blk.rc :=
    fun s r hc => hc.record_of_ref (by simp [ofRefs])
  refine wp_andThen (wp_transact_on ha (x := ofRefs {id}) rfl ?_ ?_ ?_)
  · intro s r e _ hc _ err hb
    obtain ⟨blk, hblk, -⟩ := hrec s r hc
    exact absurd hb (decrementTx_not_error hblk)
  · intro hm
    exact ⟨fun _ h => (by cases h), fun _ _ => ⟨s0, _, hm.sheds rfl, rfl⟩⟩
  intro s r hc _ a s' hb _
  obtain ⟨blk, hblk, hpos⟩ := hrec s r hc
  rcases decrementTx_ok hblk hpos hb with ⟨h1, rfl, rfl⟩ | ⟨h1, rfl, rfl⟩
  · refine ⟨fun b => sameBlock_outside hL (OrdMap.get_erase_of_ne _) fun _ _ => rfl,
      ofStrays {(id, diskDepth id blk.depth)}, _, rfl, fun b _ => SameBlock.refl _ b,
      (hc.decrement_last hblk h1).log _, ⟨?_, fun _ h => by cases h⟩, ?_⟩
    · rintro v hv
      cases hv
      exact ha.on (unlinkBlock_ok hL (by simp))
    · intro hm
      exact ⟨fun _ h => (by cases h), fun _ _ => ⟨_, _, hm.sheds rfl, rfl⟩⟩
  · refine ⟨fun b => sameBlock_outside hL (OrdMap.get_insert_of_ne _ _) fun _ _ => rfl, 0, _, rfl,
      fun b _ => SameBlock.refl _ b, (hc.decrement hblk h1 hpos).log _, ⟨?_, fun _ h => by cases h⟩, ?_⟩
    · rintro v hv
      cases hv
      exact ⟨_, 0, sheds_zero, rfl⟩
    · intro hm
      exact ⟨fun _ h => (by cases h), fun _ _ => ⟨_, 0, sheds_zero, rfl⟩⟩

/-! ## Many decrements -/

/-- **A release consumes the references it was given**, those of a transaction that fails apart. -/
theorem releaseBlocks_sheds (ha : Grants m F A) (owner : Owner) : ∀ ids : List BlockId,
    wp (ledgerOn c.stripes m A) (releaseBlocks c owner ids) (fun _ g => Sheds m F g) (ofRefs ids) := by
  intro ids
  induction ids with
  | nil => exact sheds_zero
  | cons id ids ih =>
    have hsplit : ofRefs ((id :: ids : List BlockId) : Multiset BlockId) = ofRefs {id} + ofRefs ids := by
      rw [← ofRefs_add, ← Multiset.cons_coe, ← Multiset.singleton_add]
    rw [hsplit]
    refine wp_bind (wp_lock rfl fun s => ?_)
    rw [← add_assoc]
    -- the first reference goes under its stripe, the others beside it
    refine wp_bind (wp_framed (decrementOneBlock_ok ha owner id (Multiset.mem_singleton_self _)) ?_)
    rintro _ _ ⟨s1, l, hl, rfl⟩
    rw [add_assoc]
    refine wp_bind (wp_unlock (by rw [add_views, hl.1.1]; rfl) ?_)
    rw [add_comm]
    exact wp_framed ih fun _ g hg => hg.add hl

theorem releaseBlocks_ok (owner : Owner) (ids : List BlockId) :
    wp (ledger c.stripes m) (releaseBlocks c owner ids) (fun _ g => Leak m g) (ofRefs ids) :=
  wp_mono (fun _ _ h => h.1) (releaseBlocks_sheds c grants_any owner ids)

end QssStorage
