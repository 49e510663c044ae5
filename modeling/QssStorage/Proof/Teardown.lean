import QssStorage.Spec.Repair
import QssStorage.Conc.Runs

/-!
# What the first round of a repair removes

Half-deleted buckets are torn down and orphan parts reaped, both through the release path
of the store, which counts records down whatever the holders say.

* `repair_firstRound`: the first round, from what the store says before it.
-/

namespace QssStorage.Scrub

open Conc Conc.Prog List OrdMap

variable {α : Type} {s s' : Store} {n : BlockId → ℕ} {bucket : Bytes} {v : Volume} {report : Report}
variable {part : MultiPart} {width : ℕ} {scrub : Bool} {trees : List Bytes}

/-! ## Releases -/

/-- What one release leaves of a block record. -/
def lessen : Option (Cell Block) → Option (Cell Block)
  | some (.record block) =>
    if block.rc = 1 then none else some (.record { block with rc := decrementRefcount block.rc })
  | some .garbage => some .garbage
  | none => none

/-- How many releases a count lasts for; at zero the counter wraps. -/
def lasts (rc : ℕ) : ℕ := if rc = 0 then 2 ^ 64 else rc

theorem lasts_pos (rc : ℕ) : 1 ≤ lasts rc := by
  unfold lasts
  split <;> omega

theorem lessen_iterate_none (k : ℕ) : lessen^[k] none = none := Function.iterate_fixed rfl k

theorem lessen_iterate_garbage (k : ℕ) : lessen^[k] (some .garbage) = some .garbage := Function.iterate_fixed rfl k

/-- `k` releases of a record. -/
theorem lessen_iterate (block : Block) : ∀ k, lessen^[k] (some (.record block)) =
    if k < lasts block.rc then some (.record { block with rc := if k = 0 then block.rc else lasts block.rc - k })
    else none := by
  intro k
  have hpos := lasts_pos block.rc
  induction k with
  | zero => rw [if_pos (by omega)]; rfl
  | succ k ih =>
    rw [Function.iterate_succ_apply', ih]
    by_cases hk : k < lasts block.rc
    · rw [if_pos hk]
      have hrc : (if k = 0 then block.rc else lasts block.rc - k) = 1 ↔ ¬ k + 1 < lasts block.rc := by
        unfold lasts at *
        split_ifs at * <;> omega
      have hdec : k + 1 < lasts block.rc →
          decrementRefcount (if k = 0 then block.rc else lasts block.rc - k) = lasts block.rc - (k + 1) := by
        intro hlt
        unfold lasts decrementRefcount at *
        split_ifs at * <;> omega
      by_cases hlt : k + 1 < lasts block.rc
      · simp only [lessen, if_neg (hrc.not.2 (not_not.2 hlt)), if_pos hlt, hdec hlt, Nat.add_eq_zero_iff,
          one_ne_zero, and_false, if_false]
      · simp only [lessen, if_pos (hrc.2 hlt), if_neg hlt]
    · rw [if_neg hk, if_neg (by omega)]
      rfl

/-- A record that releases leave keeps everything but its count. -/
theorem lessen_iterate_record {block block' : Block} {k : ℕ}
    (h : lessen^[k] (some (.record block)) = some (.record block')) : ∃ rc, block' = { block with rc } := by
  rw [lessen_iterate] at h
  split at h
  · cases h
    exact ⟨_, rfl⟩
  · cases h

/-- Only a record comes of releases as a record. -/
theorem of_lessen_iterate {cell : Option (Cell Block)} {block' : Block} {k : ℕ}
    (h : lessen^[k] cell = some (.record block')) : ∃ block, cell = some (.record block) := by
  match cell, h with
  | some (.record block), _ => exact ⟨block, rfl⟩
  | some .garbage, h => rw [lessen_iterate_garbage] at h; cases h
  | none, h => rw [lessen_iterate_none] at h; cases h

/-- The file at `depth` is the one that `n` releases of each block unlink with its record. -/
def Spent (n : BlockId → ℕ) (s : Store) (id : BlockId) (depth : ℕ) : Prop :=
  ∃ block, s.blocks.get id = some (.record block) ∧ lessen^[n id] (s.blocks.get id) = none ∧ depth = diskDepth id block.depth

/-- `s'` is `s` after `n` releases of each block. -/
structure Released (n : BlockId → ℕ) (s s' : Store) : Prop where
  blocks : ∀ id, s'.blocks.get id = lessen^[n id] (s.blocks.get id)
  gone : ∀ id depth, Spent n s id depth → s'.files.get (toLex (id, depth)) = none
  kept : ∀ id depth, ¬ Spent n s id depth → s'.files.get (toLex (id, depth)) = s.files.get (toLex (id, depth))

theorem not_spent_zero (s : Store) (id : BlockId) (depth : ℕ) : ¬ Spent (fun _ => 0) s id depth := by
  rintro ⟨block, hb, hn, -⟩
  rw [Function.iterate_zero_apply, hb] at hn
  cases hn

theorem Released.refl (s : Store) : Released (fun _ => 0) s s :=
  ⟨fun _ => rfl, fun id depth h => (not_spent_zero s id depth h).elim, fun _ _ _ => rfl⟩

theorem Released.congr {n n' : BlockId → ℕ} (h : Released n s s') (hn : ∀ id, n id = n' id) : Released n' s s' := by
  obtain rfl : n = n' := funext hn
  exact h

/-- Releases add up. -/
theorem Released.spent_add {n m : BlockId → ℕ} (h : Released n s s') (id : BlockId) (depth : ℕ) :
    Spent (fun id => n id + m id) s id depth ↔ Spent n s id depth ∨ Spent m s' id depth := by
  have hadd : lessen^[n id + m id] (s.blocks.get id) = lessen^[m id] (s'.blocks.get id) := by
    rw [add_comm, Function.iterate_add_apply, h.blocks]
  constructor
  · rintro ⟨block, hb, hn, hd⟩
    by_cases hs : lessen^[n id] (s.blocks.get id) = none
    · exact .inl ⟨block, hb, hs, hd⟩
    right
    have hs' : ∃ block', s'.blocks.get id = some (.record { block with rc := block' }) := by
      rw [h.blocks, hb]
      rw [hb, lessen_iterate] at hs
      rw [lessen_iterate]
      split at hs
      · rename_i hk; rw [if_pos hk]; exact ⟨_, rfl⟩
      · exact (hs rfl).elim
    obtain ⟨rc, hb'⟩ := hs'
    exact ⟨_, hb', hadd ▸ hn, hd⟩
  · rintro (⟨block, hb, hn, hd⟩ | ⟨block', hb', hn, hd⟩)
    · refine ⟨block, hb, ?_, hd⟩
      rw [hadd, h.blocks, hn, lessen_iterate_none]
    rw [h.blocks] at hb'
    obtain ⟨block, hb⟩ := of_lessen_iterate hb'
    rw [hb] at hb'
    obtain ⟨rc, rfl⟩ := lessen_iterate_record hb'
    exact ⟨block, hb, hadd.trans hn, hd⟩

theorem Released.trans {n m : BlockId → ℕ} {s s1 s2 : Store} (h : Released n s s1) (h' : Released m s1 s2) :
    Released (fun id => n id + m id) s s2 where
  blocks id := by rw [h'.blocks, h.blocks, add_comm, Function.iterate_add_apply]
  gone id depth hs := by
    rcases (h.spent_add id depth).1 hs with hs | hs
    · by_cases hs' : Spent m s1 id depth
      · exact h'.gone id depth hs'
      · rw [h'.kept id depth hs', h.gone id depth hs]
    · exact h'.gone id depth hs
  kept id depth hs := by
    have hs' := (h.spent_add id depth).not.1 hs
    push Not at hs'
    rw [h'.kept id depth hs'.2, h.kept id depth hs'.1]

theorem lessen_eq_none {block : Block} : lessen (some (.record block)) = none ↔ block.rc = 1 := by
  unfold lessen
  split <;> simp_all

/-- A step that lessens one record, and unlinks its file with the last reference, is one release. -/
theorem released_one {id : BlockId}
    (hblocks : ∀ b, s'.blocks.get b = if b = id then lessen (s.blocks.get b) else s.blocks.get b)
    (hlast : ∀ block, s.blocks.get id = some (.record block) → block.rc = 1 →
      s'.files = s.files.erase (toLex (id, diskDepth id block.depth)))
    (hfiles : (∀ block, s.blocks.get id = some (.record block) → block.rc ≠ 1) → s'.files = s.files) :
    Released (fun b => if b = id then 1 else 0) s s' := by
  have hspent : ∀ b depth, Spent (fun b => if b = id then 1 else 0) s b depth ↔
      b = id ∧ ∃ block, s.blocks.get id = some (.record block) ∧ block.rc = 1 ∧ depth = diskDepth id block.depth := by
    intro b depth
    unfold Spent
    by_cases hb : b = id
    · subst hb
      simp only [if_true, Function.iterate_one, true_and]
      refine exists_congr fun block => and_congr_right fun hblock => ?_
      rw [hblock, lessen_eq_none]
    · simp only [hb, false_and, iff_false]
      rintro ⟨block, hblock, hn, -⟩
      cases hblock.symm.trans hn
  refine ⟨?_, ?_, ?_⟩
  · intro b
    rw [hblocks]
    split <;> rfl
  · intro b depth h
    obtain ⟨rfl, block, hblock, hrc, rfl⟩ := (hspent b depth).1 h
    rw [hlast block hblock hrc, get_erase_self]
  intro b depth h
  by_cases hlive : ∀ block, s.blocks.get id = some (.record block) → block.rc ≠ 1
  · rw [hfiles hlive]
  push Not at hlive
  obtain ⟨block, hblock, hrc⟩ := hlive
  rw [hlast block hblock hrc]
  refine get_erase_of_ne _ fun he => h ?_
  obtain ⟨rfl, rfl⟩ := Prod.mk.inj (toLex.injective he)
  exact (hspent _ _).2 ⟨rfl, block, hblock, hrc, rfl⟩

/-- One release, with nothing failing. -/
theorem decrementOneBlock_eval (owner : Owner) (id : BlockId) (s : Store) :
    ∃ r s', (decrementOneBlock owner id).eval steady s = some (r, s') ∧ Released (fun b => if b = id then 1 else 0) s s' ∧
      s' = { s with blocks := s'.blocks, files := s'.files, log := s'.log } := by
  unfold decrementOneBlock andThen
  rw [eval_bind]
  simp only [transact, Prog.step, eval, decrementTx, decrementBlockRc, steady]
  cases hget : s.blocks.get id with
  | none =>
    refine ⟨.ok (), s, rfl, released_one ?_ ?_ fun _ => rfl, rfl⟩
    · intro b
      split
      · rename_i hb; rw [hb, hget]; rfl
      · rfl
    · intro block hblock; rw [hget] at hblock; cases hblock
  | some cell => cases cell with
  | garbage =>
    refine ⟨.error .undecodable, s, rfl, released_one ?_ ?_ fun _ => rfl, rfl⟩
    · intro b
      split
      · rename_i hb; rw [hb, hget]; rfl
      · rfl
    · intro block hblock; rw [hget] at hblock; cases hblock
  | record block =>
    by_cases hrc : block.rc = 1
    · simp only [hrc, if_true]
      refine ⟨.ok (), _, rfl, released_one ?_ ?_ ?_, rfl⟩
      · intro b
        simp only [get_erase]
        split
        · rename_i hb; rw [hb, hget, lessen_eq_none.2 hrc]
        · rfl
      · intro block' hblock' _; rw [hget] at hblock'; cases hblock'; rfl
      · intro h; exact (h block hget hrc).elim
    · simp only [hrc, if_false]
      refine ⟨.ok (), _, rfl, released_one ?_ ?_ fun _ => rfl, rfl⟩
      · intro b
        simp only [get_insert]
        split
        · rename_i hb; rw [hb, hget, lessen, if_neg hrc]
        · rfl
      · intro block' hblock' hrc'; rw [hget] at hblock'; cases hblock'; exact (hrc hrc').elim

/-- `release_blocks`, with nothing failing. -/
theorem releaseBlocks_eval (c : Config) (owner : Owner) : ∀ (ids : List BlockId) (s : Store),
    ∃ s', (releaseBlocks c owner ids).eval steady s = some ((), s') ∧ Released (fun id => ids.count id) s s' ∧
      s' = { s with blocks := s'.blocks, files := s'.files, log := s'.log } := by
  intro ids
  induction ids with
  | nil => intro s; exact ⟨s, rfl, .refl s, rfl⟩
  | cons id ids ih =>
    intro s
    obtain ⟨r, s1, h1, hrel1, hs1⟩ := decrementOneBlock_eval owner id s
    obtain ⟨s2, h2, hrel2, hs2⟩ := ih s1
    refine ⟨s2, ?_, (hrel1.trans hrel2).congr ?_, ?_⟩
    · simp only [releaseBlocks, bind_eq, Prog.lock, Prog.unlock, acquire_bind, release_bind, ret_bind, eval]
      rw [eval_bind, h1]
      exact h2
    · intro b
      rw [count_cons, add_comm]
      by_cases hb : id = b
      · simp [hb]
      · simp [hb, Ne.symm hb]
    · rw [hs2, hs1]

/-! ## Objects of a half-deleted bucket -/

/-- Nothing but one bucket, the block records and the files changed. -/
structure Beside (bucket : Bytes) (s s' : Store) : Prop where
  tree : ∀ t, t ≠ bucket → s'.trees.get t = s.trees.get t
  usage : ∀ t, t ≠ bucket → s'.usage.get t = s.usage.get t
  parts : s'.parts = s.parts
  uploads : s'.uploads = s.uploads
  buckets : s'.buckets = s.buckets

theorem Beside.refl (bucket : Bytes) (s : Store) : Beside bucket s s := ⟨fun _ _ => rfl, fun _ _ => rfl, rfl, rfl, rfl⟩

theorem Beside.trans {s s1 s2 : Store} (h : Beside bucket s s1) (h' : Beside bucket s1 s2) : Beside bucket s s2 :=
  ⟨fun t ht => (h'.tree t ht).trans (h.tree t ht), fun t ht => (h'.usage t ht).trans (h.usage t ht),
    h'.parts.trans h.parts, h'.uploads.trans h.uploads, h'.buckets.trans h.buckets⟩

/-- The references of a stored object. -/
def cellRefs : Cell Object → List BlockId
  | .record o => o.blocks
  | .garbage => []

/-- The references of the objects a teardown can name. -/
def utf8Refs (entries : List (Bytes × Cell Object)) : List BlockId :=
  entries.flatMap fun e => if isUtf8 e.1 then cellRefs e.2 else []

/-- A delete that goes through. -/
theorem deleteObject_eval (c : Config) {bucket key : Bytes} {o : Object}
    (hget : (s.tree bucket).get key = some (.record o)) (husage : s.usage.get bucket ≠ some .garbage) :
    ∃ s', (deleteObject c bucket key).eval steady s = some (.ok true, s') ∧
      Released (fun id => o.blocks.count id) s s' ∧ Beside bucket s s' ∧
      s'.tree bucket = (s.tree bucket).erase key ∧ s'.usage.get bucket ≠ some .garbage := by
  obtain ⟨current, hcurrent⟩ : ∃ current, (s.usage.get bucket).getD (.record 0) = .record current := by
    cases h : s.usage.get bucket with
    | none => exact ⟨0, rfl⟩
    | some cell =>
      cases cell with
      | record n => exact ⟨n, rfl⟩
      | garbage => exact (husage h).elim
  unfold deleteObject andThen
  rw [eval_bind]
  simp only [transact, Prog.step, eval, deleteObjectTx, takeObject, hget, addBucketUsage, Store.setTree, hcurrent, steady, Option.bind]
  rw [eval_bind]
  obtain ⟨s', heval, hrel, hs'⟩ := releaseBlocks_eval c .object o.blocks
    { s with trees := s.trees.insert bucket ((s.tree bucket).erase key)
             usage := s.usage.insert bucket (.record
               (if 0 ≤ asI64 (-asI64 o.size) then min (current + (asI64 (-asI64 o.size)).toNat) (2 ^ 64 - 1)
                else current - (-asI64 (-asI64 o.size)).toNat)) }
  have hreads : ∀ t, s'.tree t = if t = bucket then (s.tree bucket).erase key else s.tree t := by
    intro t
    rw [hs', Store.tree]
    simp only [get_insert]
    split <;> rfl
  refine ⟨s', ?_, ⟨hrel.blocks, hrel.gone, hrel.kept⟩, ⟨?_, ?_, ?_, ?_, ?_⟩, ?_, ?_⟩
  · simp only [steady] at heval
    rw [heval]
    rfl
  · intro t ht; rw [hs']; exact get_insert_of_ne _ _ ht
  · intro t ht; rw [hs']; exact get_insert_of_ne _ _ ht
  · rw [hs']
  · rw [hs']
  · rw [hs']
  · rw [hreads, if_pos rfl]
  · rw [hs']
    simp only [get_insert_self]
    exact fun h => by cases h

/-- A delete that does not, for a usage row that does not decode. -/
theorem deleteObject_refused (c : Config) {bucket key : Bytes} {o : Object}
    (hget : (s.tree bucket).get key = some (.record o)) (husage : s.usage.get bucket = some .garbage) :
    (deleteObject c bucket key).eval steady s = some (.error .undecodable, s) := by
  unfold deleteObject andThen
  rw [eval_bind]
  simp only [transact, Prog.step, eval, deleteObjectTx, takeObject, hget, addBucketUsage, Store.setTree, husage, Option.getD_some,
    Option.bind]

/-- Every object of a bucket, with a usage row that decodes. -/
theorem deleteObjects_spec (c : Config) (bucket : Bytes) : ∀ (entries : List (Bytes × Cell Object)) (s : Store),
    (entries.map Prod.fst).Nodup → (∀ e ∈ entries, ∃ o, e.2 = .record o ∧ (s.tree bucket).get e.1 = some e.2) →
    s.usage.get bucket ≠ some .garbage →
    ∃ s', deleteObjects c bucket (entries.map Prod.fst) s = (true, s') ∧
      Released (fun id => (utf8Refs entries).count id) s s' ∧ Beside bucket s s' := by
  intro entries
  induction entries with
  | nil => intro s _ _ _; exact ⟨s, rfl, .refl s, .refl bucket s⟩
  | cons e entries ih =>
    intro s hnodup hrecords husage
    obtain ⟨key, cell⟩ := e
    obtain ⟨o, rfl, hget⟩ := hrecords _ mem_cons_self
    have hnodup' := nodup_cons.1 hnodup
    by_cases hkey : isUtf8 key
    · obtain ⟨s1, heval, hrel, hbeside, htree, husage1⟩ := deleteObject_eval c hget husage
      -- the other keys are still there
      have hrest : ∀ e ∈ entries, ∃ o, e.2 = .record o ∧ (s1.tree bucket).get e.1 = some e.2 := by
        intro e he
        obtain ⟨o', ho', hget'⟩ := hrecords e (mem_cons_of_mem _ he)
        refine ⟨o', ho', ?_⟩
        rw [htree, get_erase_of_ne _ ?_, hget']
        intro hk
        exact hnodup'.1 (hk ▸ mem_map_of_mem he)
      obtain ⟨s2, hdel, hrel2, hbeside2⟩ := ih s1 hnodup'.2 hrest husage1
      refine ⟨s2, ?_, (hrel.trans hrel2).congr ?_, hbeside.trans hbeside2⟩
      · simp only [map_cons, deleteObjects, hkey, if_true, heval, hdel]
      · intro id
        simp only [utf8Refs, flatMap_cons, hkey, if_true, cellRefs, count_append]
    · obtain ⟨s2, hdel, hrel2, hbeside2⟩ := ih s hnodup'.2 (fun e he => hrecords e (mem_cons_of_mem _ he)) husage
      refine ⟨s2, ?_, hrel2.congr ?_, hbeside2⟩
      · simp only [map_cons, deleteObjects, hkey, if_false, hdel, Bool.false_eq_true]
      · intro id
        simp only [utf8Refs, flatMap_cons, hkey, if_false, nil_append, Bool.false_eq_true]

/-- Without one nothing is deleted: the first key that can be named ends it. -/
theorem deleteObjects_refused (c : Config) (bucket : Bytes) (s : Store) (husage : s.usage.get bucket = some .garbage) :
    ∀ entries : List (Bytes × Cell Object),
    (∀ e ∈ entries, ∃ o, e.2 = .record o ∧ (s.tree bucket).get e.1 = some e.2) →
    deleteObjects c bucket (entries.map Prod.fst) s = (decide (∀ e ∈ entries, isUtf8 e.1 = false), s) := by
  intro entries
  induction entries with
  | nil => intro _; rfl
  | cons e entries ih =>
    intro hrecords
    obtain ⟨key, cell⟩ := e
    obtain ⟨o, rfl, hget⟩ := hrecords _ mem_cons_self
    by_cases hkey : isUtf8 key
    · simp only [map_cons, deleteObjects, hkey, if_true, deleteObject_refused c hget husage, mem_cons,
        forall_eq_or_imp, Bool.true_eq_false, false_and, decide_false]
    · simp only [map_cons, deleteObjects, hkey, if_false, Bool.false_eq_true, mem_cons, forall_eq_or_imp,
        true_and, ih fun e he => hrecords e (mem_cons_of_mem _ he)]

/-! ## What a round sheds -/

/-- `s'` is `s` without the trees of `T` and the parts of `P`, after `n` releases of each block. -/
structure Shed (n : BlockId → ℕ) (T P : Bytes → Prop) (s s' : Store) : Prop where
  released : Released n s s'
  tree_gone : ∀ t, T t → s'.trees.get t = none
  tree_kept : ∀ t, ¬ T t → s'.trees.get t = s.trees.get t
  usage_kept : ∀ t, ¬ T t → s'.usage.get t = s.usage.get t
  part_gone : ∀ k, P k → s'.parts.get k = none
  part_kept : ∀ k, ¬ P k → s'.parts.get k = s.parts.get k
  uploads : s'.uploads = s.uploads
  buckets : s'.buckets = s.buckets

theorem Shed.refl (s : Store) : Shed (fun _ => 0) (fun _ => False) (fun _ => False) s s :=
  ⟨.refl s, fun _ h => h.elim, fun _ _ => rfl, fun _ _ => rfl, fun _ h => h.elim, fun _ _ => rfl, rfl, rfl⟩

theorem Shed.congr {n n' : BlockId → ℕ} {T T' P P' : Bytes → Prop} (h : Shed n T P s s')
    (hn : ∀ id, n id = n' id) (hT : ∀ t, T t ↔ T' t) (hP : ∀ k, P k ↔ P' k) : Shed n' T' P' s s' := by
  obtain rfl : n = n' := funext hn
  obtain rfl : T = T' := funext fun t => propext (hT t)
  obtain rfl : P = P' := funext fun k => propext (hP k)
  exact h

theorem Shed.trans {n m : BlockId → ℕ} {T T' P P' : Bytes → Prop} {s s1 s2 : Store} (h : Shed n T P s s1)
    (h' : Shed m T' P' s1 s2) :
    Shed (fun id => n id + m id) (fun t => T t ∨ T' t) (fun k => P k ∨ P' k) s s2 where
  released := h.released.trans h'.released
  tree_gone t ht := by
    by_cases ht' : T' t
    · exact h'.tree_gone t ht'
    · rw [h'.tree_kept t ht', h.tree_gone t (ht.resolve_right ht')]
  tree_kept t ht := by
    push Not at ht
    rw [h'.tree_kept t ht.2, h.tree_kept t ht.1]
  usage_kept t ht := by
    push Not at ht
    rw [h'.usage_kept t ht.2, h.usage_kept t ht.1]
  part_gone k hk := by
    by_cases hk' : P' k
    · exact h'.part_gone k hk'
    · rw [h'.part_kept k hk', h.part_gone k (hk.resolve_right hk')]
  part_kept k hk := by
    push Not at hk
    rw [h'.part_kept k hk.2, h.part_kept k hk.1]
  uploads := h'.uploads.trans h.uploads
  buckets := h'.buckets.trans h.buckets

/-- Every object of a tree decodes. -/
def Decodes (tree : OrdMap Bytes (Cell Object)) : Prop := ∀ e ∈ tree.entries, ∃ o, e.2 = .record o

/-- The references a teardown of `bucket` releases. -/
def deletedRefs (s : Store) (bucket : Bytes) : List BlockId :=
  if s.usage.get bucket = some .garbage then [] else utf8Refs (s.tree bucket).entries

/-- A teardown of `bucket` comes to its end. -/
def Deletable (s : Store) (bucket : Bytes) : Prop :=
  s.usage.get bucket = some .garbage → ∀ e ∈ (s.tree bucket).entries, isUtf8 e.1 = false

theorem released_dropBucket (h : Released n s s') : Released n s (dropBucket bucket s') := ⟨h.blocks, h.gone, h.kept⟩

/-- `drop_bucket` after what a teardown did. -/
theorem shed_dropBucket (h : Released n s s')
    (hbeside : Beside bucket s s') (hrow : s.buckets.get bucket = none) :
    Shed n (fun t => t = bucket) (fun _ => False) s (dropBucket bucket s') where
  released := released_dropBucket h
  tree_gone t ht := by rw [ht]; exact get_erase_self _ _
  tree_kept t ht := (get_erase_of_ne _ ht).trans (hbeside.tree t ht)
  usage_kept t ht := (get_erase_of_ne _ ht).trans (hbeside.usage t ht)
  part_gone _ h := h.elim
  part_kept _ _ := by rw [← hbeside.parts]; rfl
  uploads := hbeside.uploads
  buckets := (erase_of_get_eq_none (hbeside.buckets ▸ hrow)).trans hbeside.buckets

/-- `resume_bucket_teardown`. -/
theorem resumeBucketTeardown_shed (c : Config) (bucket : Bytes) (s : Store) (hdecodes : Decodes (s.tree bucket))
    (hrow : s.buckets.get bucket = none) :
    Shed (fun id => (deletedRefs s bucket).count id) (fun t => t = bucket ∧ Deletable s bucket) (fun _ => False) s
      (resumeBucketTeardown c bucket s) := by
  have hrecords : ∀ e ∈ (s.tree bucket).entries, ∃ o, e.2 = .record o ∧ (s.tree bucket).get e.1 = some e.2 := by
    intro e he
    obtain ⟨o, ho⟩ := hdecodes e he
    exact ⟨o, ho, mem_entries.1 he⟩
  unfold resumeBucketTeardown
  by_cases husage : s.usage.get bucket = some .garbage
  · have hdel := deleteObjects_refused c bucket s husage _ hrecords
    rw [OrdMap.keys, hdel]
    by_cases hkeys : ∀ e ∈ (s.tree bucket).entries, isUtf8 e.1 = false
    · rw [decide_eq_true hkeys]
      refine (shed_dropBucket (.refl s) (.refl bucket s) hrow).congr ?_ ?_ fun _ => Iff.rfl
      · intro id; rw [deletedRefs, if_pos husage, count_nil]
      · intro t; exact ⟨fun h => ⟨h, fun _ => hkeys⟩, And.left⟩
    · rw [decide_eq_false hkeys]
      refine (Shed.refl s).congr ?_ ?_ fun _ => Iff.rfl
      · intro id; rw [deletedRefs, if_pos husage, count_nil]
      · intro t; exact ⟨False.elim, fun h => hkeys (h.2 husage)⟩
  · obtain ⟨s', hdel, hrel, hbeside⟩ :=
      deleteObjects_spec c bucket (s.tree bucket).entries s (s.tree bucket).keys_nodup hrecords husage
    rw [OrdMap.keys, hdel]
    refine (shed_dropBucket hrel hbeside hrow).congr ?_ ?_ fun _ => Iff.rfl
    · intro id; rw [deletedRefs, if_neg husage]
    · intro t; exact ⟨fun h => ⟨h, fun hg => (husage hg).elim⟩, And.left⟩

/-- A list of teardowns, of distinct buckets. -/
theorem resumeBucketTeardowns_shed (c : Config) : ∀ (buckets : List Bytes) (s : Store), buckets.Nodup →
    (∀ bucket ∈ buckets, Decodes (s.tree bucket) ∧ s.buckets.get bucket = none) →
    Shed (fun id => (buckets.flatMap (deletedRefs s)).count id) (fun t => t ∈ buckets ∧ Deletable s t) (fun _ => False) s
      (buckets.foldl (fun s bucket => resumeBucketTeardown c bucket s) s) := by
  intro buckets
  induction buckets with
  | nil =>
    intro s _ _
    exact (Shed.refl s).congr (fun _ => rfl) (fun t => ⟨False.elim, fun h => by cases h.1⟩) fun _ => Iff.rfl
  | cons bucket buckets ih =>
    intro s hnodup hdecodes
    obtain ⟨hnot, hnodup⟩ := nodup_cons.1 hnodup
    obtain ⟨hfirst, hrow⟩ := hdecodes bucket mem_cons_self
    have h1 := resumeBucketTeardown_shed c bucket s hfirst hrow
    set s1 := resumeBucketTeardown c bucket s
    -- the other buckets are as they were
    have hne : ∀ t ∈ buckets, ¬ (t = bucket ∧ Deletable s bucket) := fun t ht h => hnot (h.1 ▸ ht)
    have htree : ∀ t ∈ buckets, s1.tree t = s.tree t := fun t ht => by
      rw [Store.tree, Store.tree, h1.tree_kept t (hne t ht)]
    have husage : ∀ t ∈ buckets, s1.usage.get t = s.usage.get t := fun t ht => h1.usage_kept t (hne t ht)
    have h2 := ih s1 hnodup fun t ht => by
      rw [htree t ht, h1.buckets]
      exact hdecodes t (mem_cons_of_mem _ ht)
    refine (h1.trans h2).congr ?_ ?_ fun k => or_self_iff
    · intro id
      rw [flatMap_cons, count_append]
      congr 2
      refine flatMap_congr fun t ht => ?_
      rw [deletedRefs, deletedRefs, htree t ht, husage t ht]
    intro t
    have hdel : t ∈ buckets → (Deletable s1 t ↔ Deletable s t) := fun ht => by
      unfold Deletable
      rw [htree t ht, husage t ht]
    constructor
    · rintro (⟨rfl, h⟩ | ⟨ht, h⟩)
      · exact ⟨mem_cons_self, h⟩
      · exact ⟨mem_cons_of_mem _ ht, (hdel ht).1 h⟩
    · rintro ⟨ht, h⟩
      rcases mem_cons.1 ht with rfl | ht
      · exact .inl ⟨rfl, h⟩
      · exact .inr ⟨ht, (hdel ht).2 h⟩

/-! ## Orphan parts -/

/-- `reap_orphan_part`. -/
theorem reapOrphanPart_shed (c : Config) {k : Bytes} (hget : s.parts.get k = some (.record part)) :
    Shed (fun id => part.blocks.count id) (fun _ => False) (fun k' => k' = k) s (reapOrphanPart c k s) := by
  obtain ⟨s', heval, hrel, hs'⟩ := releaseBlocks_eval c (.part (s.partInstance k)) part.blocks
    { s with parts := s.parts.erase k
             log := s.log ++ [.partReaped (s.partInstance k) part.blocks] }
  have hreap : reapOrphanPart c k s = s' := by
    unfold reapOrphanPart reapPart Reads.reapPart andThen
    rw [eval_bind]
    simp only [Reads.store, transact, Prog.step, eval, reapTx, takePart, hget, steady, Option.bind]
    rw [eval_bind]
    simp only [steady] at heval
    rw [heval]
    rfl
  rw [hreap]
  refine ⟨⟨hrel.blocks, hrel.gone, hrel.kept⟩, fun _ h => h.elim, ?_, ?_, ?_, ?_, ?_, ?_⟩
  · intro t _; rw [hs']
  · intro t _; rw [hs']
  · rintro k' rfl; rw [hs']; exact get_erase_self _ _
  · intro k' hk'; rw [hs']; exact get_erase_of_ne _ hk'
  · rw [hs']
  · rw [hs']

/-- A list of reaps, of distinct parts. -/
theorem reapOrphanParts_shed (c : Config) : ∀ (orphans : List (Bytes × MultiPart)) (s : Store),
    (orphans.map Prod.fst).Nodup → (∀ o ∈ orphans, s.parts.get o.1 = some (.record o.2)) →
    Shed (fun id => (orphans.flatMap fun o => o.2.blocks).count id) (fun _ => False) (fun k => k ∈ orphans.map Prod.fst) s
      (orphans.foldl (fun s o => reapOrphanPart c o.1 s) s) := by
  intro orphans
  induction orphans with
  | nil =>
    intro s _ _
    exact (Shed.refl s).congr (fun _ => rfl) (fun _ => Iff.rfl) fun k => by simp
  | cons o orphans ih =>
    intro s hnodup hget
    obtain ⟨hnot, hnodup⟩ := nodup_cons.1 hnodup
    have h1 := reapOrphanPart_shed c (hget o mem_cons_self)
    set s1 := reapOrphanPart c o.1 s
    have h2 := ih s1 hnodup fun o' ho' => by
      rw [h1.part_kept, hget o' (mem_cons_of_mem _ ho')]
      intro hk
      exact hnot (hk ▸ mem_map_of_mem ho')
    refine (h1.trans h2).congr ?_ (fun t => or_self_iff) ?_
    · intro id; rw [flatMap_cons, count_append]
    · intro k; rw [map_cons, mem_cons]

/-- No upload record stands for the part. -/
def Orphaned (s : Store) (part : MultiPart) : Prop :=
  s.uploads.get (uploadKey part.bucket part.key part.uploadId) = none

theorem getUpload_none : getUpload part.bucket part.key part.uploadId s = .ok none ↔ Orphaned s part := by
  unfold getUpload Orphaned
  split <;> simp_all

/-- What `orphan_parts` finds. -/
theorem mem_orphanParts : ∀ {entries : List (Bytes × Cell MultiPart)} {orphans : List (Bytes × MultiPart)},
    orphanParts s entries = some orphans →
    ∀ k part, (k, part) ∈ orphans ↔ (k, .record part) ∈ entries ∧ Orphaned s part := by
  intro entries
  induction entries with
  | nil => intro orphans h k part; cases h; simp
  | cons e entries ih =>
    intro orphans h k part
    match e, h with
    | (k', .record part'), h =>
      simp only [orphanParts] at h
      split at h
      · cases h
      · rename_i hup
        obtain ⟨orphans', h', rfl⟩ := Option.map_eq_some_iff.1 h
        rw [mem_cons, mem_cons, ih h' k part, or_and_right]
        refine or_congr_left ?_
        simp only [Prod.mk.injEq, Cell.record.injEq]
        constructor
        · rintro ⟨rfl, rfl⟩; exact ⟨⟨rfl, rfl⟩, getUpload_none.1 hup⟩
        · exact And.left
      · rename_i u hup
        rw [mem_cons, ih h k part, or_and_right]
        refine (or_iff_right ?_).symm
        rintro ⟨he, horphan⟩
        obtain ⟨rfl, rfl⟩ : k = k' ∧ part = part' := by simpa using he
        cases (getUpload_none.2 horphan).symm.trans hup

theorem orphanParts_sublist : ∀ {entries : List (Bytes × Cell MultiPart)}
    {orphans : List (Bytes × MultiPart)}, orphanParts s entries = some orphans →
    (orphans.map Prod.fst).Sublist (entries.map Prod.fst) := by
  intro entries
  induction entries with
  | nil => intro orphans h; cases h; exact List.Sublist.slnil
  | cons e entries ih =>
    intro orphans h
    match e, h with
    | (k', .record part'), h =>
      simp only [orphanParts] at h
      split at h
      · cases h
      · obtain ⟨orphans', h', rfl⟩ := Option.map_eq_some_iff.1 h
        exact (ih h').cons_cons k'
      · exact (ih h).cons k'

/-- It fails on nothing that decodes. -/
theorem orphanParts_isSome (huploads : ∀ k, s.uploads.get k ≠ some .garbage) :
    ∀ {entries : List (Bytes × Cell MultiPart)}, (∀ e ∈ entries, e.2 ≠ .garbage) → (orphanParts s entries).isSome := by
  intro entries
  induction entries with
  | nil => intro _; rfl
  | cons e entries ih =>
    intro hparts
    have ih := ih fun e he => hparts e (mem_cons_of_mem _ he)
    match e, hparts e mem_cons_self with
    | (k, .record part), _ =>
      simp only [orphanParts]
      split
      · rename_i hup
        unfold getUpload at hup
        split at hup
        · cases hup
        · rename_i hg; exact (huploads _ hg).elim
        · cases hup
      · rw [Option.isSome_map]; exact ih
      · exact ih
    | (k, .garbage), h => exact (h rfl).elim

/-! ## The walks of a report -/

theorem mem_decodeAll : ∀ {cells : List (Cell α)} {as : List α}, decodeAll cells = some as →
    ∀ a, a ∈ as ↔ .record a ∈ cells := by
  intro cells
  induction cells with
  | nil => intro as h a; cases h; simp
  | cons cell cells ih =>
    intro as h a
    match cell, h with
    | .record a', h =>
      obtain ⟨as', h', rfl⟩ := Option.map_eq_some_iff.1 h
      rw [mem_cons, mem_cons, ih h' a, Cell.record.injEq]

theorem decodeAll_isSome : ∀ {cells : List (Cell α)}, (decodeAll cells).isSome ↔ .garbage ∉ cells := by
  intro cells
  induction cells with
  | nil => simp [decodeAll]
  | cons cell cells ih =>
    cases cell with
    | record a => simp [decodeAll, ih]
    | garbage => simp [decodeAll]

/-- A map of cells without garbage. -/
theorem garbage_not_mem {K α : Type} [LinearOrder K] {m : OrdMap K (Cell α)} :
    .garbage ∉ m.entries.map Prod.snd ↔ ∀ k, m.get k ≠ some .garbage := by
  constructor
  · intro h k hk
    exact h (mem_map.2 ⟨(k, .garbage), mem_entries.2 hk, rfl⟩)
  · intro h hmem
    obtain ⟨⟨k, cell⟩, he, rfl⟩ := mem_map.1 hmem
    exact h k (mem_entries.1 he)

theorem mem_objectTrees {t : Bytes} {tree : OrdMap Bytes (Cell Object)} :
    (t, tree) ∈ objectTrees s ↔ s.trees.get t = some tree ∧ isReserved t = false := by
  unfold objectTrees
  rw [mem_filter, mem_entries, Bool.not_eq_true']

/-- Every holder can be read. -/
def HoldersRead (s : Store) : Prop :=
  (∀ t tree, s.trees.get t = some tree → isReserved t = false → ∀ k, tree.get k ≠ some .garbage) ∧
    ∀ k, s.parts.get k ≠ some .garbage

/-- A record that counts as a holder names `id`. -/
def Holds (s : Store) (id : BlockId) : Prop :=
  (∃ t tree k o, s.trees.get t = some tree ∧ isReserved t = false ∧ tree.get k = some (.record o) ∧ id ∈ o.blocks) ∨
    ∃ k part, s.parts.get k = some (.record part) ∧ id ∈ part.blocks

theorem walkHolders_isSome : (walkHolders s).isSome ↔ HoldersRead s := by
  have hobjects : (decodeAll ((objectTrees s).flatMap fun t => t.2.entries.map Prod.snd)).isSome ↔
      ∀ t tree, s.trees.get t = some tree → isReserved t = false → ∀ k, tree.get k ≠ some .garbage := by
    rw [decodeAll_isSome, mem_flatMap]
    push Not
    constructor
    · intro h t tree htree hres
      exact garbage_not_mem.1 (h (t, tree) (mem_objectTrees.2 ⟨htree, hres⟩))
    · rintro h ⟨t, tree⟩ hmem
      obtain ⟨htree, hres⟩ := mem_objectTrees.1 hmem
      exact garbage_not_mem.2 (h t tree htree hres)
  have hparts : (decodeAll (s.parts.entries.map Prod.snd)).isSome ↔ ∀ k, s.parts.get k ≠ some .garbage :=
    decodeAll_isSome.trans garbage_not_mem
  unfold HoldersRead
  rw [← hobjects, ← hparts]
  unfold walkHolders
  split
  · rename_i objects parts ho hp; simp [ho, hp]
  rename_i h
  refine iff_of_false (by simp) ?_
  rintro ⟨ho, hp⟩
  obtain ⟨objects, ho⟩ := Option.isSome_iff_exists.1 ho
  obtain ⟨parts, hp⟩ := Option.isSome_iff_exists.1 hp
  exact h objects parts ho hp

theorem mem_walkHolders {refs : List BlockId} (h : walkHolders s = some refs) (id : BlockId) : id ∈ refs ↔ Holds s id := by
  unfold walkHolders at h
  split at h
  · rename_i objects parts ho hp
    cases h
    rw [mem_append, mem_flatMap, mem_flatMap]
    refine or_congr ?_ ?_
    · constructor
      · rintro ⟨o, hmem, hid⟩
        obtain ⟨⟨t, tree⟩, ht, he⟩ := mem_flatMap.1 ((mem_decodeAll ho o).1 hmem)
        obtain ⟨⟨k, cell⟩, he, rfl⟩ := mem_map.1 he
        obtain ⟨htree, hres⟩ := mem_objectTrees.1 ht
        exact ⟨t, tree, k, o, htree, hres, mem_entries.1 he, hid⟩
      · rintro ⟨t, tree, k, o, htree, hres, hk, hid⟩
        refine ⟨o, (mem_decodeAll ho o).2 (mem_flatMap.2 ⟨(t, tree), mem_objectTrees.2 ⟨htree, hres⟩, ?_⟩), hid⟩
        exact mem_map.2 ⟨(k, .record o), mem_entries.2 hk, rfl⟩
    · constructor
      · rintro ⟨part, hmem, hid⟩
        obtain ⟨⟨k, cell⟩, he, rfl⟩ := mem_map.1 ((mem_decodeAll hp part).1 hmem)
        exact ⟨k, part, mem_entries.1 he, hid⟩
      · rintro ⟨k, part, hk, hid⟩
        exact ⟨part, (mem_decodeAll hp part).2 (mem_map.2 ⟨(k, .record part), mem_entries.2 hk, rfl⟩), hid⟩
  · cases h

/-- The uploads and the parts can be read. -/
theorem multipartReport_isSome : (multipartReport s).isSome ↔
    (∀ k, s.uploads.get k ≠ some .garbage) ∧ ∀ k, s.parts.get k ≠ some .garbage := by
  rw [← garbage_not_mem, ← garbage_not_mem, ← decodeAll_isSome, ← decodeAll_isSome]
  unfold multipartReport
  split
  · rename_i uploads parts hu hp; simp [hu, hp]
  rename_i h
  refine iff_of_false (by simp) ?_
  rintro ⟨hu, hp⟩
  obtain ⟨uploads, hu⟩ := Option.isSome_iff_exists.1 hu
  obtain ⟨parts, hp⟩ := Option.isSome_iff_exists.1 hp
  exact h uploads parts hu hp

/-- What a report says it ran. -/
theorem run_ran {c : Config} (h : run c width scrub v = some report) : report.ran .recount = (walkHolders v.store).isSome ∧
      report.ran .multipartReport = (multipartReport v.store).isSome ∧ report.ran .bucketIntegrity = true ∧
      (strandedTrees v.store).isSome := by
  unfold run at h
  obtain ⟨buckets, hb, rfl⟩ := Option.map_eq_some_iff.1 h
  have hstranded : (strandedTrees v.store).isSome := by
    unfold bucketIntegrity at hb
    obtain ⟨trees, ht, -⟩ := Option.map_eq_some_iff.1 hb
    rw [ht]; rfl
  refine ⟨?_, ?_, ?_, hstranded⟩
  all_goals
    unfold Report.ran
    cases walkHolders v.store <;> cases multipartReport v.store <;> cases scrub <;> rfl

/-! ## The first round -/

/-- The references the first round releases, one entry per release. -/
def releasedRefs (s : Store) : List BlockId :=
  if (walkHolders s).isSome then
    ((strandedTrees s).getD []).flatMap (deletedRefs s) ++
      if (multipartReport s).isSome then ((orphanParts s s.parts.entries).getD []).flatMap fun o => o.2.blocks else []
  else []

/-- The first round drops the tree of this half-deleted bucket. -/
def TornDown (s : Store) (t : Bytes) : Prop :=
  (walkHolders s).isSome ∧ t ∈ (strandedTrees s).getD [] ∧ Deletable s t

/-- The first round reaps the part under this key. -/
def Reaped (s : Store) (k : Bytes) : Prop :=
  (walkHolders s).isSome ∧ (multipartReport s).isSome ∧ ∃ part, s.parts.get k = some (.record part) ∧ Orphaned s part

variable (c : Config)

theorem applyAll_onStore {f : α → RepairAction} {g : α → Store → Store}
    (h : ∀ a v, (f a).apply c v = onStore (g a) v) : ∀ (l : List α) (v : Volume),
    applyAll c (l.map f) v = onStore (fun s => l.foldl (fun s a => g a s) s) v := by
  intro l
  induction l with
  | nil => intro v; rfl
  | cons a l ih =>
    intro v
    have hstep : applyAll c ((a :: l).map f) v = applyAll c (l.map f) ((f a).apply c v) := rfl
    rw [hstep, h, ih]
    rfl

theorem mem_strandedTrees (h : strandedTrees s = some trees) {t : Bytes} :
    t ∈ trees ↔ (s.trees.get t).isSome ∧ isReserved t = false ∧ s.buckets.get t = none := by
  unfold strandedTrees listBucketNames at h
  obtain ⟨named, hnamed, rfl⟩ := Option.map_eq_some_iff.1 h
  obtain rfl : s.buckets.keys = named := by
    split at hnamed
    · exact Option.some.inj hnamed
    · cases hnamed
  rw [mem_filter, OrdMap.mem_keys, Bool.and_eq_true, Bool.not_eq_true', decide_eq_true_iff, OrdMap.mem_keys,
    Option.not_isSome_iff_eq_none]

theorem strandedTrees_decode (hread : HoldersRead s) (h : strandedTrees s = some trees) :
    trees.Nodup ∧ ∀ t ∈ trees, Decodes (s.tree t) ∧ s.buckets.get t = none := by
  refine ⟨?_, fun t ht => ?_⟩
  · unfold strandedTrees at h
    obtain ⟨named, -, rfl⟩ := Option.map_eq_some_iff.1 h
    exact s.trees.keys_nodup.filter _
  obtain ⟨hsome, hres, hrow⟩ := (mem_strandedTrees h).1 ht
  obtain ⟨tree, htree⟩ := Option.isSome_iff_exists.1 hsome
  refine ⟨fun e he => ?_, hrow⟩
  rw [Store.tree, htree] at he
  obtain ⟨k, cell⟩ := e
  cases cell with
  | record o => exact ⟨o, rfl⟩
  | garbage => exact (hread.1 t tree htree hres k (mem_entries.1 he)).elim

/-- The teardowns, as planned from a report. -/
theorem teardowns_shed (hstranded : (strandedTrees v.store).isSome)
    (hrecount : report.ran .recount = (walkHolders v.store).isSome) (hbuckets : report.ran .bucketIntegrity = true) :
    ∃ actions, planTeardowns report v = some actions ∧
      applyAll c actions v = { v with store := (applyAll c actions v).store } ∧
      Shed (fun id => (if (walkHolders v.store).isSome then ((strandedTrees v.store).getD []).flatMap (deletedRefs v.store)
          else []).count id) (TornDown v.store) (fun _ => False) v.store (applyAll c actions v).store := by
  obtain ⟨trees, htrees⟩ := Option.isSome_iff_exists.1 hstranded
  unfold planTeardowns TornDown
  simp only [hbuckets, if_true, htrees, Option.map_some, Option.getD_some, hrecount]
  by_cases hread : (walkHolders v.store).isSome
  · simp only [hread, if_true, true_and]
    obtain ⟨hnodup, hdecodes⟩ := strandedTrees_decode (walkHolders_isSome.1 hread) htrees
    refine ⟨_, rfl, ?_, ?_⟩
    all_goals rw [applyAll_onStore c (g := fun bucket => resumeBucketTeardown c bucket) fun _ _ => rfl]
    · rfl
    · exact resumeBucketTeardowns_shed c trees v.store hnodup hdecodes
  · simp only [hread, Bool.false_eq_true, if_false]
    refine ⟨[], rfl, rfl, (Shed.refl v.store).congr (fun _ => rfl) (fun t => ?_) fun _ => Iff.rfl⟩
    simp

theorem orphanParts_congr (h : s'.uploads = s.uploads) : ∀ entries : List (Bytes × Cell MultiPart),
    orphanParts s' entries = orphanParts s entries := by
  intro entries
  induction entries with
  | nil => rfl
  | cons e entries ih =>
    match e with
    | (k, .garbage) => rfl
    | (k, .record part) => simp only [orphanParts, getUpload, h, ih]

/-- The reaps, planned after the teardowns. -/
theorem orphanParts_shed {v v1 : Volume} (hparts : v1.store.parts = v.store.parts)
    (huploads : v1.store.uploads = v.store.uploads) (hrecount : report.ran .recount = (walkHolders v.store).isSome)
    (hmultipart : report.ran .multipartReport = (multipartReport v.store).isSome) :
    ∃ actions, planOrphanParts report v1 = some actions ∧
      applyAll c actions v1 = { v1 with store := (applyAll c actions v1).store } ∧
      Shed (fun id => (if (walkHolders v.store).isSome ∧ (multipartReport v.store).isSome then
          ((orphanParts v.store v.store.parts.entries).getD []).flatMap fun o => o.2.blocks else []).count id)
        (fun _ => False) (Reaped v.store) v1.store (applyAll c actions v1).store := by
  unfold planOrphanParts
  by_cases hran : (multipartReport v.store).isSome
  · obtain ⟨hup, hp⟩ := multipartReport_isSome.1 hran
    have hsome : (orphanParts v.store v.store.parts.entries).isSome := by
      refine orphanParts_isSome hup ?_
      rintro ⟨k, cell⟩ he rfl
      exact hp k (mem_entries.1 he)
    obtain ⟨orphans, horphans⟩ := Option.isSome_iff_exists.1 hsome
    have hmem := mem_orphanParts horphans
    rw [hmultipart, hran, hparts, orphanParts_congr huploads, horphans, hrecount]
    by_cases hread : (walkHolders v.store).isSome
    · simp only [hread, if_true, and_self, Option.map_some, Option.getD_some]
      refine ⟨_, rfl, ?_, ?_⟩
      all_goals rw [applyAll_onStore c (g := fun o => reapOrphanPart c o.1) fun _ _ => rfl]
      · rfl
      refine (reapOrphanParts_shed c orphans v1.store ?_ ?_).congr (fun _ => rfl) (fun _ => Iff.rfl) ?_
      · exact v.store.parts.keys_nodup.sublist (orphanParts_sublist horphans)
      · rintro ⟨k, part⟩ ho
        rw [hparts]
        exact mem_entries.1 ((hmem k part).1 ho).1
      intro k
      constructor
      · intro hk
        obtain ⟨⟨k, part⟩, ho, rfl⟩ := mem_map.1 hk
        exact ⟨hread, hran, part, mem_entries.1 ((hmem k part).1 ho).1, ((hmem k part).1 ho).2⟩
      · rintro ⟨-, -, part, hget, horphan⟩
        exact mem_map.2 ⟨(k, part), (hmem k part).2 ⟨mem_entries.2 hget, horphan⟩, rfl⟩
    · refine ⟨[], by simp [hread], rfl, (Shed.refl v1.store).congr ?_ (fun _ => Iff.rfl) ?_⟩
      · intro id; rw [if_neg fun h => hread h.1, count_nil]
      · intro k; exact ⟨False.elim, fun h => hread h.1⟩
  · refine ⟨[], by simp [hmultipart, hran], rfl, (Shed.refl v1.store).congr ?_ (fun _ => Iff.rfl) ?_⟩
    · intro id; rw [if_neg fun h => hran h.2, count_nil]
    · intro k; exact ⟨False.elim, fun h => hran h.2.1⟩

/-- What the first round of a repair leaves. -/
structure FirstRound (v v1 : Volume) : Prop where
  shed : Shed (fun id => (releasedRefs v.store).count id) (TornDown v.store) (Reaped v.store) v.store v1.store
  volume : v1 = { v with store := v1.store }

/-- A repair is its first round and then the rest of the plan. -/
theorem repair_firstRound (h : run c width scrub v = some report) : ∃ v1, FirstRound v v1 ∧
      repair c width report v = (planRepairs width report v1).map fun actions => applyAll c actions v1 := by
  obtain ⟨hrecount, hmultipart, hbuckets, hstranded⟩ := run_ran h
  obtain ⟨teardowns, hplan, hvolume, hshed⟩ := teardowns_shed c hstranded hrecount hbuckets
  set v1 := applyAll c teardowns v with hv1
  have hparts : v1.store.parts = v.store.parts := eq_of_get fun k => hshed.part_kept k id
  obtain ⟨reaps, hplan', hvolume', hshed'⟩ := orphanParts_shed c hparts hshed.uploads hrecount hmultipart
  refine ⟨applyAll c reaps v1, ⟨(hshed.trans hshed').congr ?_ ?_ ?_, ?_⟩, ?_⟩
  · intro id
    rw [← count_append]
    unfold releasedRefs
    by_cases hread : (walkHolders v.store).isSome
    · simp only [hread, if_true, true_and]
    · simp only [hread, Bool.false_eq_true, if_false, false_and, append_nil]
  · intro t; exact or_iff_left id
  · intro k; exact or_iff_right id
  · rw [hvolume', hvolume]
  · unfold repair
    rw [hplan]
    simp only [← hv1, hplan']

end QssStorage.Scrub
