import QssStorage.Proof.Record
import QssStorage.Proof.RecordTx
import QssStorage.Proof.Release

/-!
# Objects: stored, overwritten, deleted, cloned

A record is written with references its writer has in hand, and what it displaces comes
into the writer's hand to be released. Each operation ends with nothing in hand, unless
something failed.

* `acquireReferences_ok`, `cloneObjectByReference_ok`: a clone holds one more reference
  per occurrence before its record is written, or gives back what it took.
-/

namespace QssStorage

open Conc Hand

variable {m : Mode}
variable {bucket key : Bytes} {s s' : Store} {e : Err} {o : Object} (c : Config)

/-- An operation failed: what it had in hand stays there for good. -/
def Failed (m : Mode) (g : Hand) : Prop := g.views = 0 ∧ ¬ m.Clean

theorem Failed.leak {g : Hand} (h : Failed m g) : Leak m g := leak_of_not_clean h.1 h.2

theorem Failed.add {a b : Hand} (h : Failed m a) (hb : b.views = 0) : Failed m (a + b) :=
  ⟨by rw [add_views, h.1, hb]; rfl, h.2⟩

/-- The blocks of a record that may not be there. -/
def blocksOf (o : Option Object) : List BlockId := (o.map Object.blocks).getD []

theorem heldAt_record {old : Option Object} (h : (s.tree bucket).get key = old.map Cell.record) :
    heldAt s bucket key = blocksOf old := by
  unfold heldAt OrdMap.share
  rw [h]
  cases old <;> rfl

/-- The usage counter is no part of the balance. -/
theorem Core.charged {g : Hand} {old new : Option Object} {usage : OrdMap Bytes (Cell ℕ)}
    (hc : Core m s g) (h : Charged bucket old new s.usage usage) : Core m { s with usage := usage } g := by
  rcases h with ⟨-, -, rfl⟩ | ⟨current, -, rfl⟩
  · exact hc
  · exact hc.setUsage bucket _

/-- In a store that decodes no transaction on a record fails. -/
theorem Core.decodable {g : Hand} (hc : Core m s g) (h : Undecodable bucket key s) : ¬ m.Clean := by
  intro hm
  rcases h with hg | hg
  · obtain ⟨o, ho⟩ := (hc.strict hm.1).objects _ _ _ hg
    cases ho
  · obtain ⟨k, hk⟩ := (hc.strict hm.1).usage _ _ hg
    cases hk

/-! ## Writing a record -/

/-- The record in the tree, and in hand what it displaced. -/
theorem Core.put {r : Hand} {displaced : Option Object} (hc : Core m s (ofRefs o.blocks + r))
    (hheld : heldAt s bucket key = blocksOf displaced) :
    Core m (s.setTree bucket ((s.tree bucket).insert key (.record o))) (ofRefs (blocksOf displaced) + r) := by
  refine hc.setTree bucket _ ?_ rfl rfl rfl ?_
  · have hput := objectRefs_put s bucket key o
    rw [hheld] at hput
    simp only [add_refs, ofRefs]
    rw [← add_assoc, hput, add_assoc]
  · intro hm key' cell hcell
    rw [OrdMap.get_insert] at hcell
    split at hcell
    · cases hcell; exact ⟨o, rfl⟩
    · exact (hc.strict hm).objects _ _ _ hcell

/-- Under the answers `A` the block records, the record under the key and the usage of the bucket decode if `F`. -/
structure Faithful (m : Mode) (F : Prop) (bucket key : Bytes) (A : Store → Choice → Prop) : Prop extends Grants m F A where
  blocks : F → ∀ s e, A s e → ∀ id, s.blocks.get id ≠ some .garbage
  record : F → ∀ s e, A s e → (s.tree bucket).get key ≠ some .garbage
  usage : F → ∀ s e, A s e → s.usage.get bucket ≠ some .garbage

theorem faithful_any : Faithful m False bucket key fun _ => m.allow := ⟨grants_any, False.elim, False.elim, False.elim⟩

variable {F : Prop} {A : Store → Choice → Prop}

/-- **Writing a record** takes the references it names from the writer's hand, and puts
those of the record it displaces there. -/
theorem replaceObjectRecord_ok {n : ℕ} (hA : Faithful m F bucket key A) (o : Object) (noting : List Event) :
    wp (ledgerOn n m A) (replaceObjectRecord bucket key o noting)
      (fun r g => (∀ d, r = .ok d → g = ofRefs (blocksOf d)) ∧ ∀ e, r = .error e → Fallible m F ∧ g.views = 0)
      (ofRefs o.blocks) := by
  have hwrite : wp (ledgerOn n m A) (replaceObjectRecord bucket key o noting) (fun r g =>
      (∀ d, r = .ok d → g = ofRefs (blocksOf d)) ∧ ∀ e, r = .error e → Fallible m F ∧ g.views = 0)
      (hold 0 Store.empty + ofRefs o.blocks) := by
    refine wp_transact_on hA.toGrants rfl ?_ ?_ ?_
    · intro s r e he hc _ err hb
      refine ⟨nofun, fun _ _ => ⟨?_, rfl⟩⟩
      -- only what does not decode fails the body
      have hbad := replaceObjectTx_error hb
      exact ⟨hc.decodable hbad, fun hF => hbad.elim (hA.record hF s e he) (hA.usage hF s e he)⟩
    · exact fun hm => ⟨nofun, fun _ _ => ⟨hm, rfl⟩⟩
    intro s r hc _ a s' hb _
    obtain ⟨usage, hget, hcharged, rfl⟩ := replaceObjectTx_ok hb
    have hcore := (hc.put (heldAt_record hget)).charged hcharged
    refine ⟨fun b _ => SameBlock.refl _ b, ofRefs (blocksOf a), Store.empty, rfl, fun b hb => by simp at hb,
      hcore.log _, ⟨?_, nofun⟩, fun hm => ⟨nofun, fun _ _ => ⟨hm, rfl⟩⟩⟩
    rintro d hd
    cases hd
    rw [hold_zero, zero_add]
  rwa [hold_zero, zero_add] at hwrite

/-- How an operation that writes a record ends: with nothing in hand, or having failed. -/
def Done {α : Type} (m : Mode) (r : Except Err α) (g : Hand) : Prop :=
  Leak m g ∧ ∀ e, r = .error e → ¬ m.Clean

/-- The same, with no reference in hand if `F`. -/
def DoneOn {α : Type} (m : Mode) (F : Prop) (r : Except Err α) (g : Hand) : Prop :=
  Sheds m F g ∧ ∀ e, r = .error e → ¬ m.Clean

theorem DoneOn.done {α : Type} {r : Except Err α} {g : Hand} (h : DoneOn m F r g) : Done m r g := ⟨h.1.1, h.2⟩

theorem createObjectMeta_sheds (hA : Faithful m F bucket key A) (size : ℕ) (hash : Bytes) (data : ObjectData)
    (noting : List Event) (blocks : List BlockId) (hblocks : ∀ now, (⟨size, now, hash, data⟩ : Object).blocks = blocks) :
    wp (ledgerOn c.stripes m A) (createObjectMeta c bucket key size hash data noting) (DoneOn m F) (ofRefs blocks) := by
  refine wp_bind (wp_readClock rfl fun now => ?_)
  rw [← hblocks now]
  refine wp_andThen (wp_mono ?_ (replaceObjectRecord_ok hA _ noting))
  rintro r g ⟨hok, herr⟩
  refine ⟨?_, fun e he => ⟨(herr e he).1.sheds (herr e he).2, fun _ _ => (herr e he).1.1⟩⟩
  intro displaced hd
  rw [hok displaced hd]
  cases displaced with
  | none => exact ⟨sheds_zero, nofun⟩
  | some old =>
    refine wp_bind (wp_mono ?_ (releaseBlocks_sheds c hA.toGrants .object old.blocks))
    exact fun _ g hg => ⟨hg, nofun⟩

theorem createObjectMeta_ok (bucket key : Bytes) (size : ℕ) (hash : Bytes) (data : ObjectData) (noting : List Event)
    (blocks : List BlockId) (hblocks : ∀ now, (⟨size, now, hash, data⟩ : Object).blocks = blocks) :
    wp (ledger c.stripes m) (createObjectMeta c bucket key size hash data noting) (Done m) (ofRefs blocks) :=
  wp_mono (fun _ _ h => h.done) (createObjectMeta_sheds c faithful_any size hash data noting blocks hblocks)

theorem storeInlinedObject_ok (bucket key data : Bytes) :
    wp (ledger c.stripes m) (storeInlinedObject c bucket key data) (Done m) 0 :=
  createObjectMeta_ok c bucket key _ _ _ [] [] fun _ => rfl

/-! ## Deleting -/

/-- The tree without the key, and in hand what the record held. -/
theorem Core.take {r : Hand} {o : Option Object} (hc : Core m s (0 + r)) (hheld : heldAt s bucket key = blocksOf o) :
    Core m (s.setTree bucket ((s.tree bucket).erase key)) (ofRefs (blocksOf o) + r) := by
  refine hc.setTree bucket _ ?_ rfl rfl rfl ?_
  · have htake := objectRefs_take s bucket key
    rw [hheld] at htake
    simp only [add_refs, ofRefs, zero_add]
    rw [← add_assoc, htake]
  · intro hm key' cell hcell
    rw [OrdMap.get_erase] at hcell
    split at hcell
    · cases hcell
    · exact (hc.strict hm).objects _ _ _ hcell

/-- **Deleting an object** takes its references in hand with the record, and releases them. -/
theorem deleteObject_ok (bucket key : Bytes) : wp (ledger c.stripes m) (deleteObject c bucket key) (Done m) 0 := by
  refine wp_andThen (wp_transact_free rfl ?_ ?_ ?_)
  · intro s r hc err hb
    exact ⟨fun _ h => (by cases h), fun _ _ => ⟨leak_zero, fun _ _ => hc.decodable (deleteObjectTx_error hb)⟩⟩
  · exact fun hm => ⟨fun _ h => (by cases h), fun _ _ => ⟨leak_zero, fun _ _ => hm⟩⟩
  intro s r hc a s' hb
  obtain ⟨usage, hget, hcharged, rfl⟩ := deleteObjectTx_ok hb
  refine ⟨fun b => SameBlock.refl _ b, ofRefs (blocksOf a), rfl, ((hc.take (heldAt_record hget)).charged hcharged).log _,
    ⟨?_, fun _ h => by cases h⟩, fun hm => ⟨fun _ h => (by cases h), fun _ _ => ⟨leak_of_not_clean rfl hm, fun _ _ => hm⟩⟩⟩
  rintro v hv
  cases hv
  cases a with
  | none => exact ⟨leak_zero, fun _ h => by cases h⟩
  | some o =>
    refine wp_bind (wp_mono ?_ (releaseBlocks_ok c .object o.blocks))
    exact fun _ g hg => ⟨hg, fun _ h => by cases h⟩

/-! ## Cloning -/

/-- One reference of a clone. -/
theorem acquireOne_ok {n : ℕ} {L : Multiset ℕ} {s0 : Store} {x : Hand} (hA : Faithful m F bucket key A) (hx : x.views = 0)
    (id : BlockId) (hL : stripeOf n id ∈ L) :
    wp (ledgerOn n m A) (acquireOne id)
      (fun r g => ∃ s1 y, g = hold L s1 + y ∧ (r = .ok true → y = ofRefs {id} + x) ∧
        (r = .ok false → y = x) ∧ y.views = 0 ∧ ∀ e, r = .error e → Fallible m F) (hold L s0 + x) := by
  refine wp_transact_on hA.toGrants hx ?_ ?_ ?_
  · intro s r e he hc _ err hb
    refine ⟨s0, x, rfl, fun h => (by cases h), fun h => (by cases h), hx, fun _ _ => ?_⟩
    split at hb
    · rename_i hr
      have hg := bumpBlockRc_error hr
      exact ⟨fun hm => (hc.strict hm.1).not_garbage hg, fun hF => hA.blocks hF s e he id hg⟩
    · cases hb
    · cases hb
  · exact fun hm => ⟨s0, x, rfl, fun h => (by cases h), fun h => (by cases h), hx, fun _ _ => hm⟩
  · intro s r hc hag a s' hb hfits
    split at hb
    · cases hb
    · rename_i blk' s1 hr
      cases hb
      obtain ⟨blk, hblk, hdeg, rfl⟩ := bumpBlockRc_some hr
      have hy : (ofRefs {id} + x).views = 0 := by rw [add_views, hx]; rfl
      refine ⟨fun b => sameBlock_outside hL (OrdMap.get_insert_of_ne _ _) fun _ _ => rfl, ofRefs {id} + x,
        _, hy, fun b _ => SameBlock.refl _ b, ?_, ⟨_, _, rfl, fun _ => rfl, fun h => (by cases h), hy, fun _ h => by cases h⟩,
        fun hm => ⟨_, _, rfl, fun h => (by cases h), fun h => (by cases h), hy, fun _ _ => hm⟩⟩
      rw [add_assoc]
      refine hc.recorded (recorded_bump (fun _ _ => False) hr) hfits (fun _ _ _ h => h.elim) rfl
        (fun q hq => Or.inl ?_) ?_ ?_
      · simpa [ofRefs] using hq
      · simp [ofRefs]
      · simp [ofRefs]
    · rename_i s1 hr
      cases hb
      obtain ⟨rfl, -⟩ := bumpBlockRc_none hr
      exact ⟨fun b _ => SameBlock.refl _ b, x, s0, hx, hag, hc, ⟨_, _, rfl, fun h => (by cases h), fun _ => rfl, hx, fun _ h => by cases h⟩,
        fun hm => ⟨_, _, rfl, fun h => (by cases h), fun h => (by cases h), hx, fun _ _ => hm⟩⟩

/-- **Acquiring references**: all of them, or none. -/
theorem acquireReferences_ok (hA : Faithful m F bucket key A) : ∀ ids taken : List BlockId,
    wp (ledgerOn c.stripes m A) (acquireReferences c ids taken)
      (fun r g => (r = .ok true → g = ofRefs (taken ++ ids : List BlockId)) ∧ (r ≠ .ok true → Sheds m F g) ∧
        ∀ e, r = .error e → ¬ m.Clean) (ofRefs taken) := by
  intro ids
  induction ids with
  | nil => intro taken; exact ⟨fun _ => by rw [List.append_nil], fun h => absurd rfl h, nofun⟩
  | cons id ids ih =>
    intro taken
    refine wp_bind (wp_lock rfl fun s => wp_bind (hA.on (wp_attempt rfl ?_ ?_)))
    · -- the task did not complete: what was taken goes back
      intro hm
      refine wp_bind (wp_unlock rfl (wp_bind (wp_mono ?_ (releaseBlocks_sheds c hA.toGrants .undo taken))))
      exact fun _ g hg => ⟨nofun, fun _ => hg, fun _ _ => hm⟩
    refine wp_bind (wp_mono ?_ (acquireOne_ok hA rfl id (Multiset.mem_singleton_self _)))
    rintro r g ⟨s1, y, rfl, htrue, hfalse, hy, herr⟩
    refine wp_bind (wp_unlock hy ?_)
    match r with
    | .error e => exact ⟨nofun, fun _ => (herr e rfl).sheds hy, fun _ _ => (herr e rfl).1⟩
    | .ok false =>
      rw [hfalse rfl]
      refine wp_bind (wp_mono ?_ (releaseBlocks_sheds c hA.toGrants .undo taken))
      exact fun _ g hg => ⟨nofun, fun _ => hg, nofun⟩
    | .ok true =>
      have hy' : y = ofRefs (taken ++ [id] : List BlockId) := by
        rw [htrue rfl, ← ofRefs_add, ← Multiset.coe_add, add_comm, Multiset.coe_singleton]
      rw [hy']
      have h := ih (taken ++ [id])
      rwa [List.append_assoc] at h

/-- **A clone** writes a record with references of its own, or leaves none behind. -/
theorem cloneObjectByReference_sheds (hA : Faithful m F bucket key A) (sourceBucket sourceKey : Bytes) :
    wp (ledgerOn c.stripes m A) (cloneObjectByReference c sourceBucket sourceKey bucket key) (DoneOn m F) 0 := by
  refine wp_andThen (hA.on (wp_readStore_free rfl ?_ ?_))
  · exact fun hm => ⟨nofun, fun _ _ => ⟨sheds_zero, fun _ _ => hm⟩⟩
  intro s r hc
  refine ⟨?_, fun e he => ⟨sheds_zero, fun _ _ hm => ?_⟩⟩
  swap
  · -- a record that does not decode
    unfold getMeta at he
    split at he
    · cases he
    · rename_i hg
      obtain ⟨o, ho⟩ := (hc.strict hm.1).objects _ _ _ hg
      cases ho
    · cases he
  intro v _
  cases v with
  | none => exact ⟨sheds_zero, nofun⟩
  | some source =>
    -- the record, once the references it names are in hand
    have hcreate : ∀ blocks, source.blocks = blocks → wp (ledgerOn c.stripes m A)
        ((createObjectMeta c bucket key source.size source.hash source.data []).andThen
          fun o => .ret (.ok (some o))) (DoneOn m F) (ofRefs blocks) := by
      intro blocks hb
      refine wp_andThen (wp_mono ?_ (createObjectMeta_sheds c hA _ _ _ [] blocks fun _ => hb))
      exact fun r g h => ⟨fun _ _ => ⟨h.1, nofun⟩, fun e he => ⟨h.1, fun _ _ => h.2 e he⟩⟩
    have hblocks : ∀ blocks, source.blocks = blocks → wp (ledgerOn c.stripes m A)
        ((acquireReferences c blocks []).andThen fun taken =>
          if taken then (createObjectMeta c bucket key source.size source.hash source.data []).andThen
            fun o => .ret (.ok (some o)) else .ret (.ok none)) (DoneOn m F) 0 := by
      intro blocks hb
      refine wp_andThen (wp_mono ?_ (acquireReferences_ok c hA blocks []))
      rintro r g ⟨hall, hnone, herr⟩
      refine ⟨?_, fun e he => ⟨hnone (by rw [he]; exact nofun), fun _ _ => herr e he⟩⟩
      intro taken hr
      cases taken with
      | true => rw [hall hr]; exact hcreate blocks hb
      | false => exact ⟨hnone (by rw [hr]; exact nofun), nofun⟩
    dsimp only
    split
    · rename_i data hdata
      exact hcreate [] (by unfold Object.blocks; rw [hdata])
    · rename_i blocks hdata
      exact hblocks blocks (by unfold Object.blocks; rw [hdata])
    · rename_i blocks parts hdata
      exact hblocks blocks (by unfold Object.blocks; rw [hdata])

theorem cloneObjectByReference_ok (sourceBucket sourceKey destBucket destKey : Bytes) :
    wp (ledger c.stripes m) (cloneObjectByReference c sourceBucket sourceKey destBucket destKey) (Done m) 0 :=
  wp_mono (fun _ _ h => h.done) (cloneObjectByReference_sheds c faithful_any sourceBucket sourceKey)

end QssStorage
