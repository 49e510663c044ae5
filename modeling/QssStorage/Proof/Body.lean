import QssStorage.Proof.Chunks
import QssStorage.Proof.Station

/-!
# Storing a body

The chunks of a body become references in batches: what was committed and what the open
batch will add are the blocks of the object so far.

* `storeObject_ok`: **a stored body holds one reference per chunk.**
-/

namespace QssStorage

open Conc Hand List

variable {n : ℕ} {m : Mode}
variable {batch : List BatchEntry} (c : Config)

/-- A thread without stripes holds none of them. -/
theorem wp_of_hold_zero {α : Type} {p : StoreProg α} {Q : α → Hand → Prop} {x : Hand}
    (h : wp (ledger n m) p Q (hold 0 Store.empty + x)) : wp (ledger n m) p Q x := by
  rwa [hold_zero, zero_add] at h

theorem batchOk_nil : BatchOk [] := ⟨nodup_nil, nofun, nofun⟩

/-! ## One chunk -/

theorem addOccurrence_some {batch batch' : List BatchEntry} {id : BlockId} (hb : BatchOk batch)
    (h : addOccurrence batch id = some batch') : BatchOk batch' ∧ entryRefs batch' = {id} + entryRefs batch := by
  unfold addOccurrence at h
  split at h
  swap
  · cases h
  rename_i hany
  cases h
  obtain ⟨e0, he0, hid0⟩ := any_eq_true.1 hany
  have hmem : id ∈ batch.map BatchEntry.id := mem_map.2 ⟨e0, he0, of_decide_eq_true hid0⟩
  clear hany he0 hid0 e0
  have hids : ∀ l : List BatchEntry, (l.map fun e => if e.id = id then { e with occurrences := e.occurrences + 1 } else e).map
      BatchEntry.id = l.map BatchEntry.id := by
    intro l
    rw [map_map]
    refine map_congr_left fun e _ => ?_
    simp only [Function.comp_apply]
    split <;> rfl
  refine ⟨⟨by rw [hids]; exact hb.nodup, ?_, ?_⟩, ?_⟩
  · intro e he
    obtain ⟨e', he', rfl⟩ := mem_map.1 he
    have := hb.pos e' he'
    split
    · exact Nat.le_add_left _ _
    · exact this
  · intro e he
    obtain ⟨e', he', rfl⟩ := mem_map.1 he
    have := hb.depth e' he'
    split <;> exact this
  have hnodup := hb.nodup
  clear hb
  induction batch with
  | nil => simp at hmem
  | cons e batch ih =>
    rw [map_cons, nodup_cons] at hnodup
    rw [map_cons, entryRefs_cons, entryRefs_cons]
    by_cases hid : e.id = id
    · -- the only entry of this block
      rw [if_pos hid]
      have hrest : (batch.map fun e => if e.id = id then { e with occurrences := e.occurrences + 1 } else e) = batch := by
        refine (map_congr_left fun e' he' => ?_).trans (map_id batch)
        have hne : e'.id ≠ id := by
          rintro heq
          exact hnodup.1 (by rw [hid, ← heq]; exact mem_map.2 ⟨e', he', rfl⟩)
        rw [if_neg hne, id_eq]
      rw [hrest]
      simp only [Multiset.replicate_succ, hid]
      rw [← Multiset.singleton_add, add_assoc]
    · have hmem' : id ∈ batch.map BatchEntry.id := by
        rcases mem_cons.1 hmem with h | h
        · exact absurd h.symm hid
        · exact h
      rw [if_neg hid, ih hmem' hnodup.2, add_left_comm]

theorem addOccurrence_none {id : BlockId} (h : addOccurrence batch id = none) : id ∉ batch.map BatchEntry.id := by
  unfold addOccurrence at h
  split at h
  · cases h
  · rename_i hany
    intro hmem
    obtain ⟨e, he, rfl⟩ := mem_map.1 hmem
    exact hany (any_eq_true.2 ⟨e, he, by simp⟩)

/-- How a chunk of block `id` ends, for an open batch and a hand that stays as it is. -/
def Accumulated (m : Mode) (batch : List BatchEntry) (id : BlockId) (x : Hand) (r : Except Err (List BatchEntry))
    (g : Hand) : Prop :=
  g = x ∧ (∀ batch', r = .ok batch' → BatchOk batch' ∧ entryRefs batch' = {id} + entryRefs batch) ∧
    ∀ e, r = .error e → ¬ m.Clean

/-- **One chunk** becomes one more reference of the open batch. -/
theorem accumulate_ok (hb : BatchOk batch) (id : BlockId) (bytes : Bytes) {x : Hand} (hx : x.views = 0) :
    wp (ledger n m) (accumulate batch id bytes) (Accumulated m batch id x) x := by
  unfold accumulate
  split
  · rename_i batch' h
    refine ⟨rfl, ?_, fun _ h => by cases h⟩
    rintro b hr
    cases hr
    exact addOccurrence_some hb h
  rename_i hnone
  have hnew := addOccurrence_none hnone
  -- the entry of a chunk the batch did not hold
  have happend : ∀ payload : Payload, BatchOk (batch ++ [⟨id, bytes.length, 1, payload, payload.depth⟩]) ∧
      entryRefs (batch ++ [⟨id, bytes.length, 1, payload, payload.depth⟩]) = {id} + entryRefs batch := by
    intro payload
    refine ⟨⟨?_, ?_, ?_⟩, ?_⟩
    · rw [map_append, nodup_append]
      refine ⟨hb.nodup, nodup_singleton _, ?_⟩
      intro a ha b hb' heq
      rw [map_cons, map_nil, mem_singleton] at hb'
      rw [heq, hb'] at ha
      exact hnew ha
    · intro e he
      rcases mem_append.1 he with he | he
      · exact hb.pos e he
      · rw [mem_singleton.1 he]
    · intro e he
      rcases mem_append.1 he with he | he
      · exact hb.depth e he
      · rw [mem_singleton.1 he]
    · rw [entryRefs_append, entryRefs_cons, add_comm]
      rfl
  have hfinish : ∀ payload : Payload,
      Accumulated m batch id x (.ok (batch ++ [⟨id, bytes.length, 1, payload, payload.depth⟩])) x := by
    intro payload
    refine ⟨rfl, ?_, fun _ h => by cases h⟩
    rintro b hr
    cases hr
    exact happend payload
  refine wp_andThen (wp_andThen (wp_readStore_free hx ?_ ?_))
  · exact fun hm => ⟨fun _ h => (by cases h), fun _ _ => ⟨fun _ h => (by cases h), fun _ _ => ⟨rfl, fun _ h => (by cases h), fun _ _ => hm⟩⟩⟩
  intro s r hc
  refine ⟨?_, fun err herr => ⟨fun _ h => (by cases h), fun _ _ => ⟨rfl, fun _ h => (by cases h), fun _ _ hm => ?_⟩⟩⟩
  · intro live _
    cases live with
    | true => exact ⟨fun payload hp => by cases hp; exact hfinish _, fun _ h => by cases h⟩
    | false =>
      refine wp_bind (wp_of_hold_zero (wp_chooseDepth hx fun d _ => ?_))
      rw [hold_zero, zero_add]
      refine wp_andThen (wp_of_hold_zero (wp_attempt hx ?_ ?_))
      · rw [hold_zero, zero_add]
        exact fun hm => ⟨fun _ h => (by cases h), fun _ _ => ⟨fun _ h => (by cases h), fun _ _ => ⟨rfl, fun _ h => (by cases h), fun _ _ => hm⟩⟩⟩
      · rw [hold_zero, zero_add]
        exact ⟨fun _ _ => ⟨fun payload hp => by cases hp; exact hfinish _, fun _ h => by cases h⟩, fun _ h => by cases h⟩
  · exact (hc.strict hm.1).not_garbage (hasLiveRecord_error herr)

/-! ## One batch, one body -/

/-- How a batch or a body that adds `refs` ends. -/
def Gained {α : Type} (m : Mode) (refs : α → Multiset BlockId) (r : Except Err α) (g : Hand) : Prop :=
  (∀ a, r = .ok a → ∃ l, g = Hand.ofRefs (refs a) + l ∧ Leak m l) ∧ ∀ e, r = .error e → Failed m g

theorem flushBatch_ok (hb : BatchOk batch) :
    wp (ledger c.stripes m) (flushBatch c batch) (Gained m fun _ => entryRefs batch) 0 := by
  unfold flushBatch
  split
  · rename_i hempty
    rw [isEmpty_iff.1 hempty]
    exact ⟨fun _ _ => ⟨0, by rw [add_zero]; rfl, leak_zero⟩, fun _ h => by cases h⟩
  refine wp_andThen (wp_of_hold_zero (wp_attempt rfl ?_ ?_))
  · exact fun hm => ⟨fun _ h => (by cases h), fun _ _ => ⟨fun _ h => (by cases h), fun _ _ => ⟨rfl, hm⟩⟩⟩
  refine ⟨fun _ _ => ?_, fun _ h => by cases h⟩
  rw [hold_zero, zero_add]
  split
  · refine wp_andThen (wp_mono ?_ (stationClose_ok hb))
    rintro r g ⟨rfl, herr⟩
    refine ⟨fun a ha => ?_, fun e he => ⟨fun _ h => (by cases h), fun _ _ => ⟨rfl, herr e he⟩⟩⟩
    subst ha
    exact ⟨fun _ _ => ⟨0, by rw [add_zero]; rfl, leak_zero⟩, fun _ h => by cases h⟩
  · refine wp_andThen (wp_mono ?_ (closeAlone_ok c hb))
    rintro r g ⟨hok, herr⟩
    exact ⟨fun a ha => ⟨fun _ _ => hok a ha, fun _ h => by cases h⟩, fun e he => ⟨fun _ h => (by cases h), fun _ _ => herr e he⟩⟩

/-- A batch closed beside what its request committed before. -/
theorem flushBatch_more (hb : BatchOk batch) (committed : Multiset BlockId) {l : Hand} (hl : Leak m l) :
    wp (ledger c.stripes m) (flushBatch c batch) (Gained m fun _ => committed + entryRefs batch)
      (ofRefs committed + l) := by
  rw [← zero_add (ofRefs committed + l)]
  refine wp_framed (flushBatch_ok c hb) ?_
  rintro r g ⟨hok, herr⟩
  refine ⟨fun a ha => ?_, fun e he => (herr e he).add (by rw [add_views, hl.1]; rfl)⟩
  obtain ⟨l', rfl, hl'⟩ := hok a ha
  exact ⟨l' + l, by rw [ofRefs_add]; abel, hl'.add hl⟩

/-- How a body ends: a stream error loses what was committed. -/
def Stored (m : Mode) (body : List (Option Bytes)) (r : Except Err (List BlockId × Bytes × ℕ)) (g : Hand) : Prop :=
  (∀ v, r = .ok v → ∃ l, g = Hand.ofRefs v.1 + l ∧ Leak m l) ∧ ∀ e, r = .error e → g.views = 0 ∧ (none ∉ body → ¬ m.Clean)

theorem Stored.cons {chunk : Option Bytes} {body : List (Option Bytes)} {r : Except Err (List BlockId × Bytes × ℕ)}
    {g : Hand} (h : Stored m body r g) : Stored m (chunk :: body) r g :=
  ⟨h.1, fun e he => ⟨(h.2 e he).1, fun hn => (h.2 e he).2 fun hmem => hn (mem_cons_of_mem _ hmem)⟩⟩

/-- The chunks of a body: what was committed and what the open batch will add are the
blocks so far. -/
theorem storeChunks_ok : ∀ (body : List (Option Bytes)) {batch : List BatchEntry} {blocks : List BlockId}
    {data : Bytes} {committed : Multiset BlockId} {l : Hand}, BatchOk batch → committed + entryRefs batch = blocks →
    Leak m l →
    wp (ledger c.stripes m) (storeChunks c body batch blocks data) (Stored m body) (ofRefs committed + l) := by
  intro body
  induction body with
  | nil =>
    intro batch blocks data committed l hb hrefs hl
    refine wp_andThen (wp_mono ?_ (flushBatch_more c hb committed hl))
    rintro r g ⟨hok, herr⟩
    refine ⟨fun a ha => ⟨?_, nofun⟩, fun e he => ⟨nofun, fun _ _ => ⟨(herr e he).1, fun _ => (herr e he).2⟩⟩⟩
    rintro v hv
    cases hv
    rw [← hrefs]
    exact hok a ha
  | cons chunk body ih =>
    intro batch blocks data committed l hb hrefs hl
    have hv : (ofRefs committed + l).views = 0 := by rw [add_views, hl.1]; rfl
    cases chunk with
    | none => exact ⟨nofun, fun _ _ => ⟨hv, fun hn => absurd mem_cons_self hn⟩⟩
    | some bytes =>
      refine wp_andThen (wp_mono ?_ (accumulate_ok hb (c.hash bytes) bytes hv))
      rintro r g ⟨rfl, hok, herr⟩
      refine ⟨?_, fun e he => ⟨nofun, fun _ _ => ⟨hv, fun _ => herr e he⟩⟩⟩
      intro batch' hr
      obtain ⟨hb', hadd⟩ := hok batch' hr
      have hblocks : committed + entryRefs batch' = ((blocks ++ [c.hash bytes] : List BlockId) : Multiset BlockId) := by
        rw [hadd, ← Multiset.coe_add, ← hrefs, Multiset.coe_singleton]
        abel
      split
      · -- the batch is full: its references are committed
        refine wp_andThen (wp_mono ?_ (flushBatch_more c hb' committed hl))
        rintro r' g ⟨hok', herr'⟩
        refine ⟨?_, fun e he => ⟨nofun, fun _ _ => ⟨(herr' e he).1, fun _ => (herr' e he).2⟩⟩⟩
        intro u hu
        obtain ⟨l', rfl, hl'⟩ := hok' u hu
        refine wp_mono (fun _ _ h => h.cons) (ih batchOk_nil ?_ hl')
        rw [hblocks]
        exact add_zero _
      · exact wp_mono (fun _ _ h => h.cons) (ih hb' hblocks hl)

/-- **A stored body holds one reference per chunk.** -/
theorem storeObject_ok (body : List (Option Bytes)) : wp (ledger c.stripes m) (storeObject c body) (Stored m body) 0 := by
  have h : wp (ledger c.stripes m) (storeChunks c (buffered body []) [] [] []) (Stored m (buffered body []))
      (ofRefs 0 + 0) := storeChunks_ok c _ batchOk_nil rfl leak_zero
  refine wp_mono (fun r g hr => ⟨hr.1, fun e he => ⟨(hr.2 e he).1, fun hn => ?_⟩⟩) h
  exact (hr.2 e he).2 fun hmem => hn (none_mem_buffered hmem)

/-- **A block-backed PUT** ends with nothing in hand, if its body came through and nothing
failed. -/
theorem storeSingleObjectAndMeta_ok (bucket key : Bytes) (body : List (Option Bytes)) (len : ℕ) :
    wp (ledger c.stripes m) (storeSingleObjectAndMeta c bucket key body len)
      (fun _ g => g.views = 0 ∧ (none ∉ body → Leak m g)) 0 := by
  have hstore : wp (ledger c.stripes m) (if 0 < len then storeObject c body else .ret (.ok ([], c.md5 [], 0)))
      (Stored m body) 0 := by
    split
    · exact storeObject_ok c body
    · exact ⟨fun v hv => by cases hv; exact ⟨0, rfl, leak_zero⟩, fun _ h => by cases h⟩
  refine wp_andThen (wp_mono ?_ hstore)
  rintro r g ⟨hok, herr⟩
  refine ⟨?_, fun e he => ⟨(herr e he).1, fun hn => leak_of_not_clean (herr e he).1 ((herr e he).2 hn)⟩⟩
  intro stored hr
  obtain ⟨l, rfl, hl⟩ := hok stored hr
  refine wp_bind (wp_framed (createObjectMeta_ok c bucket key _ _ _ [] stored.1 fun _ => rfl) ?_)
  intro o g hdone
  have hall : Leak m (g + l) := hdone.1.add hl
  cases o with
  | ok o | error e => exact ⟨hall.1, fun _ => hall⟩

end QssStorage
