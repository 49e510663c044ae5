import QssStorage.Proof.Ledger

/-!
# What each change of the state does to the ledger

One lemma per kind of change: a block record is written or removed, a file appears or
goes, an object record or a part record is replaced or removed. Each says which hand
balances the ledger afterwards.
-/

namespace QssStorage

open Conc OrdMap

variable {m : Mode} {s : Store} {g g' : Hand}

theorem rcOf_record {b : BlockId} {blk : Block} (h : s.blocks.get b = some (.record blk)) : rcOf s b = blk.rc := by
  unfold rcOf; rw [h]

/-- A reference in hand is counted by a record. -/
theorem Core.record_of_ref (h : Core m s g) {b : BlockId} (hb : b ∈ g.refs) :
    ∃ blk, s.blocks.get b = some (.record blk) ∧ 1 ≤ blk.rc := by
  have hc := h.counts b
  have hpos : 1 ≤ g.refs.count b := Multiset.one_le_count_iff_mem.2 hb
  rw [Multiset.count_add] at hc
  unfold rcOf at hc
  split at hc
  · rename_i blk hblk
    exact ⟨blk, hblk, by omega⟩
  · omega

theorem Strict.congr {s s' : Store} (h : Strict s) (hb : s'.blocks = s.blocks) (ht : s'.trees = s.trees)
    (hu : s'.usage = s.usage) : Strict s' := by
  refine ⟨by rw [hb]; exact h.blocks, ?_, by rw [hu]; exact h.usage⟩
  unfold Store.tree
  rw [ht]
  exact h.objects

/-- A change that leaves the commit station alone. -/
theorem Core.rebuild (h : Core m s g) {s' : Store} (hq : s'.queue = s.queue) (hr : s'.replies = s.replies)
    (hn : s'.nextTicket = s.nextTicket) (ht : g'.tickets = g.tickets) (hd : g'.duties = g.duties)
    (counts : ∀ b, rcOf s' b = (named m.parts s' + g'.refs).count b)
    (placed : ∀ b d, LiveAt s' b d → FileAt s' b d)
    (strays : ∀ b d, FileAt s' b d → LiveAt s' b d ∨ (b, d) ∈ g'.strays)
    (strict : m.strict = true → Strict s') : Core m s' g' := by
  have hp : pendingTickets s' g' = pendingTickets s g := by unfold pendingTickets; rw [hq, hr, hd]
  exact ⟨counts, placed, strays, by rw [hq]; exact h.batches, by rw [hr]; exact h.replied, by rw [hp, ht]; exact h.pending,
    by rw [ht, hn]; exact h.tickets, strict⟩

/-- The history is nobody's business. -/
theorem Core.log (h : Core m s g) (l : List Event) : Core m { s with log := l } g :=
  h.rebuild rfl rfl rfl rfl rfl h.counts h.placed h.strays fun hm => (h.strict hm).congr rfl rfl rfl

/-! ## Block records -/

/-- A block record is written. -/
theorem Core.putBlock (h : Core m s g) (id : BlockId) (blk : Block)
    (hcount : ∀ b, (if b = id then blk.rc else rcOf s b) + g.refs.count b = rcOf s b + g'.refs.count b)
    (hfile : blk.degraded = false → FileAt s id (diskDepth id blk.depth))
    (hlive : ∀ d, LiveAt s id d → blk.degraded = false ∧ diskDepth id blk.depth = d)
    (hstray : ∀ b d, (b, d) ∈ g.strays → (b, d) ∈ g'.strays ∨ (b = id ∧ blk.degraded = false ∧ diskDepth id blk.depth = d))
    (hstrict : m.strict = true → blk.degraded = false ∧ 1 ≤ blk.rc)
    (ht : g'.tickets = g.tickets) (hd : g'.duties = g.duties) :
    Core m { s with blocks := s.blocks.insert id (.record blk) } g' := by
  have hget : ∀ b, (s.blocks.insert id (Cell.record blk)).get b =
      if b = id then some (.record blk) else s.blocks.get b := fun b => s.blocks.get_insert id b _
  -- a live record stays live where it was
  have hkeep : ∀ b d, LiveAt s b d → LiveAt { s with blocks := s.blocks.insert id (.record blk) } b d := by
    intro b d hl
    by_cases hb : b = id
    · subst hb
      exact ⟨blk, by rw [hget, if_pos rfl], hlive d hl⟩
    · obtain ⟨blk', h1, h2⟩ := hl
      exact ⟨blk', by rw [hget, if_neg hb]; exact h1, h2⟩
  refine h.rebuild rfl rfl rfl ht hd ?_ ?_ ?_ ?_
  · intro b
    have h1 := h.counts b
    have h2 := hcount b
    have h3 : rcOf { s with blocks := s.blocks.insert id (.record blk) } b =
        if b = id then blk.rc else rcOf s b := by
      unfold rcOf
      rw [hget]
      by_cases hb : b = id
      · simp [hb]
      · simp [hb]
    have h4 : named m.parts { s with blocks := s.blocks.insert id (.record blk) } = named m.parts s := rfl
    rw [h3, h4]
    rw [Multiset.count_add] at h1 ⊢
    omega
  · intro b d hl
    by_cases hb : b = id
    · subst hb
      obtain ⟨blk', h1, h2, h3⟩ := hl
      rw [hget, if_pos rfl] at h1
      cases h1
      rw [← h3]
      exact hfile h2
    · obtain ⟨blk', h1, h2⟩ := hl
      rw [hget, if_neg hb] at h1
      exact h.placed b d ⟨blk', h1, h2⟩
  · intro b d hf
    rcases h.strays b d hf with hl | hs
    · exact .inl (hkeep b d hl)
    · rcases hstray b d hs with hs | ⟨rfl, hs⟩
      · exact .inr hs
      · exact .inl ⟨blk, by rw [hget, if_pos rfl], hs⟩
  · intro hm
    have hS := h.strict hm
    refine ⟨?_, hS.objects, hS.usage⟩
    intro b cell hb
    rw [hget] at hb
    split at hb
    · cases hb; exact ⟨blk, rfl, hstrict hm⟩
    · exact hS.blocks b cell hb

/-- A block record that counts one reference is removed; its file is a stray from then on. -/
theorem Core.dropBlock (h : Core m s g) (id : BlockId) (hrc : rcOf s id = 1)
    (hcount : ∀ b, g.refs.count b = g'.refs.count b + if b = id then 1 else 0)
    (hlive : ∀ d, LiveAt s id d → (id, d) ∈ g'.strays)
    (hstray : ∀ p ∈ g.strays, p ∈ g'.strays)
    (ht : g'.tickets = g.tickets) (hd : g'.duties = g.duties) :
    Core m { s with blocks := s.blocks.erase id } g' := by
  have hget : ∀ b, (s.blocks.erase id).get b = if b = id then none else s.blocks.get b :=
    s.blocks.get_erase id
  refine h.rebuild rfl rfl rfl ht hd ?_ ?_ ?_ ?_
  · intro b
    have h1 := h.counts b
    have h2 := hcount b
    have h3 : rcOf { s with blocks := s.blocks.erase id } b = if b = id then 0 else rcOf s b := by
      unfold rcOf
      rw [hget]
      by_cases hb : b = id
      · simp [hb]
      · simp [hb]
    have h4 : named m.parts { s with blocks := s.blocks.erase id } = named m.parts s := rfl
    rw [h3, h4]
    rw [Multiset.count_add] at h1 ⊢
    by_cases hb : b = id
    · subst hb; rw [if_pos rfl] at h2 ⊢; omega
    · rw [if_neg hb] at h2 ⊢; omega
  · rintro b d ⟨blk', h1, h2⟩
    rw [hget] at h1
    split at h1
    · cases h1
    · exact h.placed b d ⟨blk', h1, h2⟩
  · intro b d hf
    rcases h.strays b d hf with hl | hs
    · by_cases hb : b = id
      · subst hb; exact .inr (hlive d hl)
      · obtain ⟨blk', h1, h2⟩ := hl
        exact .inl ⟨blk', by rw [hget, if_neg hb]; exact h1, h2⟩
    · exact .inr (hstray _ hs)
  · intro hm
    have hS := h.strict hm
    refine ⟨?_, hS.objects, hS.usage⟩
    intro b cell hb
    rw [hget] at hb
    split at hb
    · cases hb
    · exact hS.blocks b cell hb

/-! ## Files -/

/-- A file appears. -/
theorem Core.putFile (h : Core m s g) (id : BlockId) (d : ℕ) (bytes : Bytes)
    (hstray : ∀ p ∈ g.strays, p ∈ g'.strays) (hnew : (id, d) ∈ g'.strays)
    (hr : g'.refs = g.refs) (ht : g'.tickets = g.tickets) (hd : g'.duties = g.duties) :
    Core m { s with files := s.files.insert (toLex (id, d)) bytes } g' := by
  have hfile : ∀ b e, FileAt { s with files := s.files.insert (toLex (id, d)) bytes } b e ↔
      FileAt s b e ∨ (b, e) = (id, d) := by
    intro b e
    unfold FileAt
    rw [get_insert]
    by_cases hb : (b, e) = (id, d)
    · rw [if_pos (congrArg toLex hb)]; simp [hb]
    · rw [if_neg fun hh => hb (toLex.injective hh)]; simp [hb]
  refine h.rebuild rfl rfl rfl ht hd (by rw [hr]; exact h.counts) ?_ ?_ fun hm =>
    (h.strict hm).congr rfl rfl rfl
  · intro b e hl
    exact (hfile b e).2 (.inl (h.placed b e hl))
  intro b e hf
  rcases (hfile b e).1 hf with hf | hf
  · rcases h.strays b e hf with hl | hs
    · exact .inl hl
    · exact .inr (hstray _ hs)
  · rw [hf]; exact .inr hnew

/-- A file no live record names goes. -/
theorem Core.dropFile (h : Core m s g) (id : BlockId) (d : ℕ) (hdead : ¬ LiveAt s id d)
    (hstray : ∀ p ∈ g.strays, p ∈ g'.strays ∨ p = (id, d))
    (hr : g'.refs = g.refs) (ht : g'.tickets = g.tickets) (hd : g'.duties = g.duties) :
    Core m { s with files := s.files.erase (toLex (id, d)) } g' := by
  have hfile : ∀ b e, FileAt { s with files := s.files.erase (toLex (id, d)) } b e ↔ FileAt s b e ∧ (b, e) ≠ (id, d) := by
    intro b e
    unfold FileAt
    rw [get_erase]
    by_cases hb : (b, e) = (id, d)
    · rw [if_pos (congrArg toLex hb)]; simp [hb]
    · rw [if_neg fun hh => hb (toLex.injective hh)]; simp [hb]
  refine h.rebuild rfl rfl rfl ht hd (by rw [hr]; exact h.counts) ?_ ?_ fun hm =>
    (h.strict hm).congr rfl rfl rfl
  · intro b e hl
    refine (hfile b e).2 ⟨h.placed b e hl, ?_⟩
    rintro heq
    obtain ⟨rfl, rfl⟩ := Prod.mk.inj heq
    exact hdead hl
  intro b e hf
  obtain ⟨hf, hne⟩ := (hfile b e).1 hf
  rcases h.strays b e hf with hl | hs
  · exact .inl hl
  · rcases hstray _ hs with hs | hs
    · exact .inr hs
    · exact absurd hs hne

/-! ## Object records -/

/-- The references of what is under a key, if anything. -/
def heldAt (s : Store) (bucket key : Bytes) : Multiset BlockId :=
  (s.tree bucket).share (fun _ => objectCellRefs) key

theorem objectRefs_setTree (s : Store) (bucket : Bytes) (t : OrdMap Bytes (Cell Object)) :
    objectRefs (s.setTree bucket t) + (s.tree bucket).sum (fun _ => objectCellRefs) =
      objectRefs s + t.sum fun _ => objectCellRefs := by
  have hshare : s.trees.share (fun _ t => t.sum fun _ => objectCellRefs) bucket =
      (s.tree bucket).sum fun _ => objectCellRefs := by
    unfold OrdMap.share Store.tree
    cases s.trees.get bucket <;> rfl
  rw [← hshare]
  exact sum_insert _ s.trees bucket t

theorem objectRefs_put (s : Store) (bucket key : Bytes) (o : Object) :
    objectRefs (s.setTree bucket ((s.tree bucket).insert key (.record o))) + heldAt s bucket key =
      objectRefs s + o.blocks := by
  have h1 := objectRefs_setTree s bucket ((s.tree bucket).insert key (.record o))
  have h2 := sum_insert (fun _ => objectCellRefs) (s.tree bucket) key (.record o)
  have h3 : objectRefs (s.setTree bucket ((s.tree bucket).insert key (.record o))) + heldAt s bucket key +
      (s.tree bucket).sum (fun _ => objectCellRefs) =
      objectRefs s + o.blocks + (s.tree bucket).sum (fun _ => objectCellRefs) := by
    rw [add_right_comm, h1, add_assoc, heldAt, h2, objectCellRefs, add_assoc]
    exact congrArg _ (add_comm _ _)
  exact add_right_cancel h3

theorem objectRefs_take (s : Store) (bucket key : Bytes) :
    objectRefs (s.setTree bucket ((s.tree bucket).erase key)) + heldAt s bucket key = objectRefs s := by
  have h1 := objectRefs_setTree s bucket ((s.tree bucket).erase key)
  have h2 := sum_erase (fun _ => objectCellRefs) (s.tree bucket) key
  have h3 : objectRefs (s.setTree bucket ((s.tree bucket).erase key)) + heldAt s bucket key +
      (s.tree bucket).sum (fun _ => objectCellRefs) =
      objectRefs s + (s.tree bucket).sum (fun _ => objectCellRefs) := by
    rw [add_right_comm, h1, add_assoc, heldAt, h2]
  exact add_right_cancel h3

theorem tree_setTree (s : Store) (bucket bucket' : Bytes) (t : OrdMap Bytes (Cell Object)) :
    (s.setTree bucket t).tree bucket' = if bucket' = bucket then t else s.tree bucket' := by
  unfold Store.tree Store.setTree
  simp only [get_insert]
  split <;> rfl

/-- The tree of a bucket is replaced: what the records name now and what is in hand now add
up as before. -/
theorem Core.setTree (h : Core m s g) (bucket : Bytes) (t : OrdMap Bytes (Cell Object))
    (hrefs : objectRefs (s.setTree bucket t) + g'.refs = objectRefs s + g.refs)
    (hstrays : g'.strays = g.strays) (ht : g'.tickets = g.tickets) (hd : g'.duties = g.duties)
    (hstrict : m.strict = true → ∀ key cell, t.get key = some cell → ∃ o, cell = .record o) :
    Core m (s.setTree bucket t) g' := by
  refine h.rebuild rfl rfl rfl ht hd ?_ h.placed (by rw [hstrays]; exact h.strays) ?_
  · intro b
    have h1 : named m.parts (s.setTree bucket t) + g'.refs = named m.parts s + g.refs := by
      have h2 : ∀ x y z w : Multiset BlockId, x + y + z + w = (x + w) + (y + z) := by intros; abel
      unfold named
      rw [h2, h2 (objectRefs s), hrefs]
      rfl
    rw [h1]
    exact h.counts b
  · intro hm
    have hS := h.strict hm
    refine ⟨hS.blocks, ?_, hS.usage⟩
    intro bucket' key cell hc
    rw [tree_setTree] at hc
    split at hc
    · exact hstrict hm key cell hc
    · exact hS.objects bucket' key cell hc

/-- The usage counter moves. -/
theorem Core.setUsage (h : Core m s g) (bucket : Bytes) (k : ℕ) :
    Core m { s with usage := s.usage.insert bucket (.record k) } g := by
  refine h.rebuild rfl rfl rfl rfl rfl h.counts h.placed h.strays ?_
  intro hm
  have hS := h.strict hm
  refine ⟨hS.blocks, hS.objects, ?_⟩
  intro b cell hc
  rw [get_insert] at hc
  split at hc
  · cases hc; exact ⟨k, rfl⟩
  · exact hS.usage b cell hc

/-! ## Part records -/

/-- The parts change: what they name now and what is in hand now add up as before. -/
theorem Core.setParts (h : Core m s g) (p : OrdMap Bytes (Cell MultiPart)) (hm : m.parts = true)
    (hrefs : partRefs { s with parts := p } + g'.refs = partRefs s + g.refs)
    (hstrays : g'.strays = g.strays) (ht : g'.tickets = g.tickets) (hd : g'.duties = g.duties) :
    Core m { s with parts := p } g' := by
  refine h.rebuild rfl rfl rfl ht hd ?_ h.placed (by rw [hstrays]; exact h.strays) fun hs =>
    (h.strict hs).congr rfl rfl rfl
  intro b
  have h1 : named m.parts { s with parts := p } + g'.refs = named m.parts s + g.refs := by
    have h2 : ∀ x y z w : Multiset BlockId, x + y + z + w = (y + w) + (x + z) := by intros; abel
    unfold named
    rw [hm, if_pos rfl, if_pos rfl, h2, h2 (objectRefs s), hrefs]
    rfl
  rw [h1]
  exact h.counts b

end QssStorage
