import QssStorage.Conc.Meter
import QssStorage.Proof.Conservation
import QssStorage.Proof.Frame

/-!
# Cloning by reference: all or nothing

A clone takes one reference per occurrence, each in a transaction of its own, and writes the record last. While it runs
others take and give back references to the same blocks, so what it did is read off its own turns: `rcGain` adds up what
they did to the count of a block.

A reference that the clone took is in its hand until a record names it or it is given back, and the ledger of the store
balances at every turn. So the turns of a clone that ends with empty hands moved a count by what they moved the number of
records that name the block. A transaction that fails sends the clone away with full hands: `faithful` says what its turns
have to meet.

* `clone_all_or_nothing`: **it writes the record and keeps one reference per occurrence, or it leaves every count and the
  destination as it found them.**
-/

namespace QssStorage

open Conc Prog Pool

variable (c : Config) (sourceBucket sourceKey destBucket destKey : Bytes)
variable {s s' : Store}

/-! ## What a clone's own turns did -/

/-- What some turns did to the count of a block. -/
def rcGain (b : BlockId) (ts : List (Store × Store)) : ℤ := (ts.map fun t => (rcOf t.2 b : ℤ) - rcOf t.1 b).sum

/-- A clone that wrote `o`: the record names the blocks of a source that the clone read, it displaced what was under the
destination key, and every block gained one reference per occurrence in `o` and lost one per occurrence in what `o`
displaced. -/
def Cloned (o : Object) (ts : List (Store × Store)) : Prop :=
  ∃ source displaced before s s' after, ts = before ++ (s, s') :: after ∧
    (∃ s0, (s0, s0) ∈ before ∧ getMeta sourceBucket sourceKey s0 = .ok (some source)) ∧
    o.data = source.data ∧ o.size = source.size ∧ o.hash = source.hash ∧
    recordAt destBucket destKey s = displaced.map Cell.record ∧ recordAt destBucket destKey s' = some (.record o) ∧
    (∀ t ∈ before ++ after, SameAt destBucket destKey t.1 t.2) ∧
    ∀ b, rcGain b ts = source.blocks.count b - (blocksOf displaced).count b

/-- A clone that did nothing: no turn touched the destination key, and what they did to the counts cancels out. -/
def LeftAsFound (ts : List (Store × Store)) : Prop :=
  (∀ t ∈ ts, SameAt destBucket destKey t.1 t.2) ∧ ∀ b, rcGain b ts = 0

/-- What a clone that returned `r` has done. -/
def AllOrNothing (r : Except Err (Option Object)) (ts : List (Store × Store)) : Prop :=
  match r with
  | .ok (some o) => Cloned sourceBucket sourceKey destBucket destKey o ts
  | .ok none | .error _ => LeftAsFound destBucket destKey ts

/-! ## The system -/

/-- A clone among any operations of the store, of which only the steps are taken that `ok` allows. -/
def cloneSystem (ok : Choice → Store → Bool) :
    System (Option StoreOp) Store Choice ℕ (Option (Except Err (Option Object))) where
  prog
    | some o => (o.prog c).bind fun _ => .ret none
    | none => ((cloneObjectByReference c sourceBucket sourceKey destBucket destKey).guarded ok).bind fun r => .ret (some r)
  reset := Store.restart

/-- A clone in a run from `s0`: it is started in some pool, takes the turns `ts` while the others
take theirs, and returns `r`. No count of the run passes what its `usize` holds. -/
def CloneRun (ok : Choice → Store → Bool) (s0 : Store) (r : Except Err (Option Object))
    (ts : List (Store × Store)) : Prop :=
  let S := cloneSystem c sourceBucket sourceKey destBucket destKey ok
  ∃ w w1 w' tr t, Reach S (Into S Store.Fits) (start s0) w ∧ w.st.Fits ∧
    w.next S (.spawn none) = some w1 ∧
    Trace S (Into S Store.Fits) w.threads.length w1 tr w' ∧
    w'.threads[w.threads.length]? = some t ∧ t.prog = some (.ret (some r)) ∧ ts = ownTurns tr

/-- The block records, the record under the destination key and the usage of its bucket decode. -/
def decodes (s : Store) : Bool :=
  s.blocks.entries.all (fun x => x.2 ≠ .garbage) && recordAt destBucket destKey s ≠ some .garbage &&
    s.usage.get destBucket ≠ some .garbage

/-- A step that meets no database error. -/
def faithful (e : Choice) (s : Store) : Bool := e.commit = .ok && decodes destBucket destKey s

variable {c sourceBucket sourceKey destBucket destKey}

theorem decodes_block (h : decodes destBucket destKey s = true) (id : BlockId) : s.blocks.get id ≠ some .garbage := by
  simp only [decodes, Bool.and_eq_true, List.all_eq_true, decide_eq_true_eq] at h
  intro hget
  exact h.1.1 (id, .garbage) (OrdMap.mem_entries.2 hget) rfl

theorem decodes_record (h : decodes destBucket destKey s = true) : recordAt destBucket destKey s ≠ some .garbage := by
  simp only [decodes, Bool.and_eq_true, decide_eq_true_eq] at h
  exact h.1.2

theorem decodes_usage (h : decodes destBucket destKey s = true) : s.usage.get destBucket ≠ some .garbage := by
  simp only [decodes, Bool.and_eq_true, decide_eq_true_eq] at h
  exact h.2

theorem faithful_iff {e : Choice} :
    faithful destBucket destKey e s = true ↔ e.commit = .ok ∧ decodes destBucket destKey s = true := by
  unfold faithful
  rw [Bool.and_eq_true, decide_eq_true_eq]

/-! ## Empty hands -/

/-- No stripe and no reference in hand. -/
def Spent (g : Hand) : Prop := g.views = 0 ∧ g.refs = 0

/-- The answers that meet no database error. -/
theorem faithful_grants (m : Mode) : Faithful m True destBucket destKey fun s e =>
    m.allow e ∧ faithful destBucket destKey e s = true where
  allowed _ _ h := h.1
  commits _ _ _ h := (faithful_iff.1 h.2).1
  blocks _ _ _ h := decodes_block (faithful_iff.1 h.2).2
  record _ _ _ h := decodes_record (faithful_iff.1 h.2).2
  usage _ _ _ h := decodes_usage (faithful_iff.1 h.2).2

/-- **A clone ends with no reference in hand.** -/
theorem clone_spent {m : Mode} : wp (ledger c.stripes m)
    ((cloneObjectByReference c sourceBucket sourceKey destBucket destKey).guarded (faithful destBucket destKey))
    (fun _ g => Spent g) 0 :=
  wp_guarded (wp_mono (fun _ _ h => ⟨h.1.1.1, h.1.2 trivial⟩)
    (cloneObjectByReference_sheds c (faithful_grants m) sourceBucket sourceKey))

/-! ## The records a clone leaves alone, and the one it writes -/

/-- A step that leaves every record that can name a block alone. -/
structure Apart (s s' : Store) : Prop where
  trees : s'.trees = s.trees
  parts : s'.parts = s.parts
  replies : s'.replies = s.replies

theorem Apart.refl (s : Store) : Apart s s := ⟨rfl, rfl, rfl⟩

theorem RefStep.apart (h : RefStep s s') : Apart s s' := ⟨h.blockStep.trees, h.blockStep.parts, h.replies⟩

/-- The turns that left every record alone. -/
def AllApart (ts : List (Store × Store)) : Prop := ∀ t ∈ ts, Apart t.1 t.2

theorem AllApart.snoc {ts : List (Store × Store)} (h : AllApart ts) (hs : Apart s s') : AllApart (ts ++ [(s, s')]) := by
  intro t ht
  rcases List.mem_append.1 ht with ht | ht
  · exact h t ht
  · cases List.mem_singleton.1 ht
    exact hs

theorem allApart_one (s : Store) : AllApart [(s, s)] := List.forall_mem_singleton.2 (.refl s)

/-- The source was read in one of the turns. -/
def Sourced (sourceBucket sourceKey : Bytes) (source : Object) (ts : List (Store × Store)) : Prop :=
  ∃ s0, (s0, s0) ∈ ts ∧ getMeta sourceBucket sourceKey s0 = .ok (some source)

theorem Sourced.snoc {source : Object} {ts : List (Store × Store)} (h : Sourced sourceBucket sourceKey source ts)
    (t : Store × Store) : Sourced sourceBucket sourceKey source (ts ++ [t]) := by
  obtain ⟨s0, hs0, hread⟩ := h
  exact ⟨s0, List.mem_append_left _ hs0, hread⟩

/-- One turn wrote `o`, the others left every record alone. -/
def Wrote (sourceBucket sourceKey destBucket destKey : Bytes) (source o : Object) (ts : List (Store × Store)) : Prop :=
  ∃ before s s' after, ts = before ++ (s, s') :: after ∧ AllApart before ∧ AllApart after ∧
    Sourced sourceBucket sourceKey source before ∧ o.data = source.data ∧ o.size = source.size ∧ o.hash = source.hash ∧
    RecordTx destBucket destKey (some o) [] s s'

theorem Wrote.snoc {source o : Object} {ts : List (Store × Store)}
    (h : Wrote sourceBucket sourceKey destBucket destKey source o ts) (hs : Apart s s') :
    Wrote sourceBucket sourceKey destBucket destKey source o (ts ++ [(s, s')]) := by
  obtain ⟨before, s1, s2, after, rfl, hbefore, hafter, hrest⟩ := h
  exact ⟨before, s1, s2, after ++ [(s, s')], by simp, hbefore, hafter.snoc hs, hrest⟩

section Tallies

variable {Λ : Type} {R : Λ → Store → Store → Prop}

/-- Before the record is written. -/
def HasRead (sourceBucket sourceKey : Bytes) (source : Object) (ts : List (Store × Store)) : Prop :=
  AllApart ts ∧ Sourced sourceBucket sourceKey source ts

/-- A program that leaves every record alone. -/
theorem apart_tallies {α : Type} {J : List (Store × Store) → Prop}
    (hJ : ∀ ts s s', J ts → Apart s s' → J (ts ++ [(s, s')])) {p : StoreProg α} (hp : Steps Apart p fun _ => True) :
    Tallies R noted (fun _ ts => J ts) p fun _ _ ts => J ts :=
  (tallies_quiet (stable_noted J) (fun s s' ts hs h => hJ ts s s' h hs) .refl hp).mono fun _ _ _ h => h.2

theorem HasRead.snoc {source : Object} (ts : List (Store × Store)) (s s' : Store)
    (h : HasRead sourceBucket sourceKey source ts) (hs : Apart s s') :
    HasRead sourceBucket sourceKey source (ts ++ [(s, s')]) :=
  ⟨h.1.snoc hs, h.2.snoc _⟩

/-- One transaction that is not let down by its commit. -/
theorem tallies_transact_faithful {α : Type} {body : Store → Except Err (α × Store)} {J : List (Store × Store) → Prop}
    {Q : Except Err α → List (Store × Store) → Prop}
    (herr : ∀ s ts err, J ts → Q (.error err) (ts ++ [(s, s)]))
    (hok : ∀ s ts a s', body s = .ok (a, s') → J ts → Q (.ok a) (ts ++ [(s, s')])) :
    Tallies R noted (fun _ ts => J ts) ((transact body).guarded (faithful destBucket destKey)) fun r _ ts => Q r ts := by
  refine tallies_step (stable_noted _) (fun r => stable_noted _) ?_
  intro e s ts r s' hf h
  dsimp only at hf
  split at hf
  swap
  · cases hf
  rename_i hfaithful
  obtain ⟨hcommit, -⟩ := faithful_iff.1 hfaithful
  rw [hcommit] at hf
  cases hb : body s with
  | error err =>
    simp only [hb, Option.some.injEq, Prod.mk.injEq] at hf
    obtain ⟨rfl, rfl⟩ := hf
    exact herr s ts err h
  | ok as =>
    simp only [hb, Option.some.injEq, Prod.mk.injEq] at hf
    obtain ⟨rfl, rfl⟩ := hf
    exact hok s ts _ _ hb h

/-- What a clone of `source` that is not refused did before it returned `r`. -/
def Written (sourceBucket sourceKey destBucket destKey : Bytes) (source : Object) (r : Except Err Object)
    (ts : List (Store × Store)) : Prop :=
  match r with
  | .ok o => Wrote sourceBucket sourceKey destBucket destKey source o ts
  | .error _ => AllApart ts

/-- Writing the record and releasing what it displaced. -/
theorem createObjectMeta_tallies (source : Object) : Tallies R noted (fun _ ts => HasRead sourceBucket sourceKey source ts)
      ((createObjectMeta c destBucket destKey source.size source.hash source.data []).guarded (faithful destBucket destKey))
      fun r _ ts => Written sourceBucket sourceKey destBucket destKey source r ts := by
  unfold createObjectMeta
  rw [guarded_bind]
  refine tallies_bind (apart_tallies HasRead.snoc (readClock_steps Apart.refl).guarded) fun now => ?_
  rw [guarded_andThen]
  refine tallies_andThen (K := fun r _ ts => Written sourceBucket sourceKey destBucket destKey source
    (r.map fun _ => ⟨source.size, now, source.hash, source.data⟩) ts) ?_ ?_ ?_ fun displaced => ?_
  · refine tallies_transact_faithful ?_ ?_
    · exact fun s ts err h => h.1.snoc (.refl s)
    · intro s ts displaced s' hb h
      exact ⟨ts, s, s', [], rfl, h.1, nofun, h.2, rfl, rfl, rfl, _, replaceObjectTx_ok hb⟩
  · exact fun e => stable_noted _
  · exact fun e s ts h => h
  · have hwrote : ∀ {p : StoreProg Unit}, Steps RefStep p (fun _ => True) → Tallies R noted
        (fun _ ts => Wrote sourceBucket sourceKey destBucket destKey source ⟨source.size, now, source.hash, source.data⟩ ts)
        (p.guarded (faithful destBucket destKey)) fun _ _ ts =>
          Wrote sourceBucket sourceKey destBucket destKey source ⟨source.size, now, source.hash, source.data⟩ ts :=
      fun hp => apart_tallies (fun ts s s' => Wrote.snoc) (hp.mono (fun _ _ h => h.apart) fun _ h => h).guarded
    cases displaced with
    | none => exact tallies_ret (stable_noted _) fun s ts h => h
    | some old =>
      rw [guarded_bind]
      exact tallies_bind (hwrote (releaseOwn_steps c (fun _ => rfl) old.blocks)) fun _ =>
        tallies_ret (stable_noted _) fun s ts h => h

/-- What a clone that returned `r` did to the records. -/
def OnRecords (sourceBucket sourceKey destBucket destKey : Bytes) (r : Except Err (Option Object))
    (ts : List (Store × Store)) : Prop :=
  match r with
  | .ok (some o) => ∃ source, Wrote sourceBucket sourceKey destBucket destKey source o ts
  | .ok none | .error _ => AllApart ts

/-- **What a clone does to the records.** -/
theorem clone_tallies : Tallies R noted (fun _ ts => ts = [])
    ((cloneObjectByReference c sourceBucket sourceKey destBucket destKey).guarded (faithful destBucket destKey))
    fun r _ ts => OnRecords sourceBucket sourceKey destBucket destKey r ts := by
  unfold cloneObjectByReference
  rw [guarded_andThen]
  refine tallies_andThen (K := fun r _ ts => AllApart ts ∧ ∀ source, r = .ok (some source) →
    Sourced sourceBucket sourceKey source ts) ?_ ?_ ?_ fun source => ?_
  · refine tallies_step (stable_noted _) (fun r => stable_noted _) ?_
    rintro e s _ r s' hf rfl
    dsimp only at hf
    split at hf
    swap
    · cases hf
    split at hf
    · cases hf
      exact ⟨allApart_one s, fun source hsource => ⟨s, List.mem_singleton_self _, hsource⟩⟩
    · cases hf
      exact ⟨allApart_one s, nofun⟩
  · exact fun e => stable_noted _
  · exact fun e s ts h => h.1
  · cases source with
    | none => exact tallies_ret (stable_noted _) fun s ts h => h.1
    | some source =>
      have hcreate : Tallies R noted (fun _ ts => HasRead sourceBucket sourceKey source ts)
          (((createObjectMeta c destBucket destKey source.size source.hash source.data []).andThen
            fun o => .ret (.ok (some o))).guarded (faithful destBucket destKey)) fun r _ ts =>
              OnRecords sourceBucket sourceKey destBucket destKey r ts := by
        rw [guarded_andThen]
        refine tallies_andThen (createObjectMeta_tallies source) (fun e => stable_noted _) (fun e s ts h => h)
          fun o => tallies_ret (stable_noted _) fun s ts h => ⟨source, h⟩
      have htaken : ∀ blocks, Tallies R noted (fun _ ts => HasRead sourceBucket sourceKey source ts)
          (((acquireReferences c blocks []).andThen fun taken =>
            if taken then (createObjectMeta c destBucket destKey source.size source.hash source.data []).andThen
              fun o => .ret (.ok (some o)) else .ret (.ok none)).guarded (faithful destBucket destKey)) fun r _ ts =>
                OnRecords sourceBucket sourceKey destBucket destKey r ts := by
        intro blocks
        have hsteps := (acquireReferences_steps c blocks []).mono (fun _ _ h => h.apart) fun _ h => h
        rw [guarded_andThen]
        refine tallies_andThen (apart_tallies HasRead.snoc hsteps.guarded) (fun e => stable_noted _)
          (fun e s ts h => h.1) fun taken => ?_
        cases taken with
        | true => exact hcreate
        | false => exact tallies_ret (stable_noted _) fun s ts h => h.1
      refine Tallies.weaken (J := fun _ ts => HasRead sourceBucket sourceKey source ts) ?_ fun s ts h => ⟨h.1, h.2 source rfl⟩
      dsimp only
      split
      · exact hcreate
      · exact htaken _
      · exact htaken _

end Tallies

/-! ## Counts and names -/

/-- What some turns did to the number of records that name a block. -/
def nameGain (b : BlockId) (ts : List (Store × Store)) : ℤ :=
  (ts.map fun t => ((named true t.2).count b : ℤ) - (named true t.1).count b).sum

theorem Apart.named (h : Apart s s') : named true s' = named true s := by
  unfold QssStorage.named objectRefs partRefs waitingRefs
  rw [h.trees, h.parts, h.replies]

theorem AllApart.nameGain {ts : List (Store × Store)} (h : AllApart ts) (b : BlockId) : nameGain b ts = 0 := by
  refine List.sum_eq_zero fun x hx => ?_
  obtain ⟨t, ht, rfl⟩ := List.mem_map.1 hx
  rw [(h t ht).named, sub_self]

/-- The record that is written names its blocks, and what it displaced names nothing any more. -/
theorem RecordTx.named {bucket key : Bytes} {o : Object} {displaced : Option Object}
    (h : RecordTx bucket key (some o) [] s s') (hold : recordAt bucket key s = displaced.map Cell.record) :
    named true s' + blocksOf displaced = named true s + o.blocks := by
  obtain ⟨old, usage, -, -, rfl⟩ := h
  have hput := objectRefs_put s bucket key o
  rw [heldAt_record hold] at hput
  have hobjects : ∀ x y : Multiset BlockId, objectRefs (s.setTree bucket ((s.tree bucket).insert key (.record o))) + x + y +
      blocksOf displaced = objectRefs s + x + y + o.blocks := by
    intro x y
    rw [add_right_comm _ y, add_right_comm _ x, hput, add_right_comm _ (o.blocks : Multiset BlockId) x,
      add_right_comm _ (o.blocks : Multiset BlockId) y]
  exact hobjects (partRefs s) (waitingRefs s)

theorem Wrote.nameGain {source o : Object} {ts : List (Store × Store)}
    (h : Wrote sourceBucket sourceKey destBucket destKey source o ts) : ∃ displaced before s s' after,
      ts = before ++ (s, s') :: after ∧ AllApart before ∧ AllApart after ∧
      Sourced sourceBucket sourceKey source before ∧ o.data = source.data ∧ o.size = source.size ∧ o.hash = source.hash ∧
      recordAt destBucket destKey s = displaced.map Cell.record ∧ recordAt destBucket destKey s' = some (.record o) ∧
      ∀ b, nameGain b ts = source.blocks.count b - (blocksOf displaced).count b := by
  obtain ⟨before, s, s', after, rfl, hbefore, hafter, hsource, hdata, hsize, hhash, htx⟩ := h
  obtain ⟨displaced, usage, hold, -⟩ := id htx
  refine ⟨displaced, before, s, s', after, rfl, hbefore, hafter, hsource, hdata, hsize, hhash, hold, htx.recordAt_eq, fun b => ?_⟩
  · have hnamed := congrArg (Multiset.count b) (htx.named hold)
    have hblocks : o.blocks = source.blocks := by unfold Object.blocks; rw [hdata]
    rw [hblocks] at hnamed
    simp only [Multiset.count_add, Multiset.coe_count] at hnamed
    have hsplit : QssStorage.nameGain b (before ++ (s, s') :: after) = QssStorage.nameGain b before +
        (((QssStorage.named true s').count b : ℤ) - (QssStorage.named true s).count b + QssStorage.nameGain b after) := by
      simp [QssStorage.nameGain]
    rw [hsplit, hbefore.nameGain, hafter.nameGain]
    omega

/-! ## The run -/

section Run

variable {s0 : Store} {r : Except Err (Option Object)} {ts : List (Store × Store)}

/-- **The turns of a clone move a count as they move the names**: what it took is named, or given back. -/
theorem CloneRun.counts (h0 : LossFree s0) (hrest : s0.AtRest)
    (h : CloneRun c sourceBucket sourceKey destBucket destKey (faithful destBucket destKey) s0 r ts) (b : BlockId) :
    rcGain b ts = nameGain b ts := by
  obtain ⟨w, w1, w', tr, t, hw, hfits, hspawn, htr, ht, hret, rfl⟩ := h
  set S := cloneSystem c sourceBucket sourceKey destBucket destKey (faithful destBucket destKey)
  -- a clone ends with nothing in hand, the others without a stripe
  let Q : Option (Except Err (Option Object)) → Hand → Prop := fun r g => g.views = 0 ∧ (r ≠ none → g.refs = 0)
  have hsurvives : (ledger c.stripes anyMode).Survives S := ⟨(ledger_survives c anyMode).drop, (ledger_survives c anyMode).reset⟩
  have hops : ∀ (w : Pool Store Choice ℕ (Option (Except Err (Option Object)))) (o : Option StoreOp),
      Into S Store.Fits w (.spawn o) → wp (ledger c.stripes anyMode) (S.prog o) Q 0 := by
    intro _ o _
    cases o with
    | some o => exact wp_bind (wp_mono (fun _ g hg => ⟨hg, fun h => absurd rfl h⟩) (o.idle c rfl))
    | none => exact wp_bind (wp_mono (fun _ g hg => ⟨hg.1, fun _ => hg.2⟩) clone_spent)
  have hmeter : ∀ s s' g g' x, (ledger c.stripes anyMode).inv s (g + x) → (ledger c.stripes anyMode).inv s' (g' + x) →
      ((rcOf s' b : ℤ) - rcOf s b) - ((named true s').count b - (named true s).count b) =
        (g'.refs.count b : ℤ) - g.refs.count b := by
    intro s s' g g' x hs hs'
    have h1 := hs.1.counts b
    have h2 := hs'.1.counts b
    simp only [anyMode, Hand.add_refs, Multiset.count_add] at h1 h2
    omega
  obtain ⟨g, hg, hsum⟩ := hw.metered (Q := Q) hsurvives hops
    (fun _ _ _ _ hin hn => ⟨trivial, hin _ hn⟩)
    (fun g => (g.refs.count b : ℤ)) _ hmeter rfl
    ⟨h0.core hrest, Multiset.nodup_zero, fun v hv => absurd hv (Multiset.notMem_zero v)⟩
    (fun _ hn => by cases hn; exact hfits) hspawn htr ht hret
  have hempty : g.refs = 0 := hg.2 (by simp)
  have hsplit : rcGain b (ownTurns tr) = ((ownTurns tr).map fun t => ((rcOf t.2 b : ℤ) - rcOf t.1 b) -
      ((named true t.2).count b - (named true t.1).count b)).sum + nameGain b (ownTurns tr) := by
    rw [rcGain, nameGain, ← List.sum_map_add]
    simp only [sub_add_cancel]
  rw [hsplit, ← hsum, hempty]
  simp

/-- What a clone that returned did to the records. -/
theorem CloneRun.onRecords
    (h : CloneRun c sourceBucket sourceKey destBucket destKey (faithful destBucket destKey) s0 r ts) :
    OnRecords sourceBucket sourceKey destBucket destKey r ts := by
  obtain ⟨w, w1, w', tr, t, -, -, hspawn, htr, ht, hret, rfl⟩ := h
  have hprog : Tallies (fun (_ : Unit) _ _ => True) noted (fun _ ts => ts = [])
      ((cloneSystem c sourceBucket sourceKey destBucket destKey (faithful destBucket destKey)).prog none)
      fun r' _ ts => ∀ r, r' = some r → OnRecords sourceBucket sourceKey destBucket destKey r ts := by
    refine tallies_bind clone_tallies fun r => tallies_ret (stable_noted _) fun s ts h r' hr' => ?_
    cases hr'
    exact h
  have hend := hprog _ _ _ _ (Trace.spawned hspawn htr ht hret) [] rfl r rfl
  rwa [foldl_noted, List.nil_append] at hend

/-- **All or nothing.** Whatever the others do, a clone whose own steps meet no database error either writes the record,
with the block list of the source and one reference taken per occurrence, or leaves every count and the destination key as
it found them. -/
theorem clone_all_or_nothing (c : Config) (sourceBucket sourceKey destBucket destKey : Bytes) (s0 : Store)
    (h0 : LossFree s0) (hrest : s0.AtRest) (r : Except Err (Option Object)) (ts : List (Store × Store))
    (h : CloneRun c sourceBucket sourceKey destBucket destKey (faithful destBucket destKey) s0 r ts) :
    AllOrNothing sourceBucket sourceKey destBucket destKey r ts := by
  have hcounts := h.counts h0 hrest
  have hrecords := h.onRecords
  have hnothing : AllApart ts → LeftAsFound destBucket destKey ts := by
    intro hapart
    refine ⟨fun t ht => sameAt_of_trees (hapart t ht).trees, fun b => ?_⟩
    rw [hcounts, hapart.nameGain]
  match r with
  | .error e => exact hnothing hrecords
  | .ok none => exact hnothing hrecords
  | .ok (some o) =>
    obtain ⟨source, hwrote⟩ := hrecords
    obtain ⟨displaced, before, s, s', after, hts, hbefore, hafter, hsource, hdata, hsize, hhash, hold, hnew, hgain⟩ :=
      hwrote.nameGain
    refine ⟨source, displaced, before, s, s', after, hts, hsource, hdata, hsize, hhash, hold, hnew, ?_, fun b => ?_⟩
    · intro t ht
      rcases List.mem_append.1 ht with ht | ht
      · exact sameAt_of_trees (hbefore t ht).trees
      · exact sameAt_of_trees (hafter t ht).trees
    · rw [hcounts, hgain]

end Run

/-! ## A clone of `abc` -/

/-- `abc` under the key `k` of the bucket `b`, to be cloned to the bucket `c`. -/
def abcCloning (ok : Choice → Store → Bool) : System (Option StoreOp) Store Choice ℕ (Option (Except Err (Option Object))) :=
  cloneSystem abcConfig [98] [107] [99] [107] ok

/-- The pool after the put. -/
def abcPut (ok : Choice → Store → Bool) : Pool Store Choice ℕ (Option (Except Err (Option Object))) :=
  (Pool.execInto (abcCloning ok) Store.Fits
    (.spawn (some (.put [98] [107] [some abc] 3)) :: List.replicate 12 (.run 0 steady))
    (start Store.empty)).getD (start Store.empty)

/-- The pool after the clone, whose steps are answered with `es`. -/
def abcCloned (ok : Choice → Store → Bool) (es : List Choice) :
    Option (Pool Store Choice ℕ (Option (Except Err (Option Object)))) :=
  Pool.execInto (abcCloning ok) Store.Fits (es.map (.run 1))
    ⟨(abcPut ok).st, (abcPut ok).threads ++ [⟨some ((abcCloning ok).prog none), []⟩]⟩

/-- What the clone returned, and the count of the block. -/
def outcome (w : Pool Store Choice ℕ (Option (Except Err (Option Object)))) : Option (Except Err (Option Object)) × ℕ :=
  (w.threads[1]?.bind fun t =>
    match t.prog with
    | some (.ret r) => r
    | _ => none, rcOf w.st abcId)

/-- A run that is evaluated is a run, and the count moves by what the clone did. -/
theorem cloneRun_of_eval (ok : Choice → Store → Bool) (es : List Choice) (r : Except Err (Option Object)) (n : ℕ)
    (hput : (Pool.execInto (abcCloning ok) Store.Fits
      (.spawn (some (.put [98] [107] [some abc] 3)) :: List.replicate 12 (.run 0 steady))
      (start Store.empty)).isSome = true) (hfits : (abcPut ok).st.Fits)
    (hthreads : (abcPut ok).threads.length = 1) (hout : (abcCloned ok es).map outcome = some (some r, n)) :
    ∃ ts, CloneRun abcConfig [98] [107] [99] [107] ok Store.empty r ts ∧
      rcGain abcId ts = n - rcOf (abcPut ok).st abcId := by
  obtain ⟨w', hrun, hw'⟩ := Option.map_eq_some_iff.1 hout
  obtain ⟨hret, hn⟩ := Prod.mk.inj hw'
  have hreach : Reach (abcCloning ok) (Into (abcCloning ok) Store.Fits) (start Store.empty) (abcPut ok) := by
    obtain ⟨w, hw⟩ := Option.isSome_iff_exists.1 hput
    refine Reach.execInto .refl (fun _ _ _ h => h) (hw.trans ?_)
    unfold abcPut
    rw [hw, Option.getD_some]
  obtain ⟨tr, htr, hsum⟩ := Trace.solo (M := ℤ) hrun
  have hthread : ∃ t, w'.threads[1]? = some t ∧ t.prog = some (.ret (some r)) := by
    obtain ⟨t, ht, hprog⟩ := Option.bind_eq_some_iff.1 hret
    split at hprog
    · rename_i hp
      exact ⟨t, ht, by rw [hp, hprog]⟩
    · cases hprog
  obtain ⟨t, ht, hprog⟩ := hthread
  refine ⟨_, ⟨abcPut ok, _, w', tr, t, hreach, hfits, rfl, ?_, ?_, hprog, rfl⟩, ?_⟩
  · rw [hthreads]; exact htr
  · rw [hthreads]; exact ht
  · rw [rcGain, hsum fun s => (rcOf s abcId : ℤ), hn]

/-- A commit that fails. -/
def unsteady : Choice := { steady with commit := .failed }

/-- A clone whose last transaction, the one that writes the record, cannot be committed: it answers an error, and the
block keeps the reference that the clone took. -/
theorem clone_keeps_reference : ∃ ts,
    CloneRun abcConfig [98] [107] [99] [107] (fun _ _ => true) Store.empty (.error .commit) ts ∧ rcGain abcId ts = 1 ∧
      ¬ AllOrNothing [98] [107] [99] [107] (.error .commit) ts := by
  obtain ⟨ts, hrun, hgain⟩ := cloneRun_of_eval (fun _ _ => true) (List.replicate 6 steady ++ [unsteady])
    (.error .commit) 2 (by decide +kernel) (by decide +kernel) (by decide +kernel) (by decide +kernel)
  have hone : rcOf (abcPut fun _ _ => true).st abcId = 1 := by decide +kernel
  have hgain' : rcGain abcId ts = 1 := by rw [hgain, hone]; rfl
  refine ⟨ts, hrun, hgain', fun h => ?_⟩
  have hzero : rcGain abcId ts = 0 := h.2 abcId
  omega

theorem clone_all_or_nothing_abc : ∃ ts o,
    CloneRun abcConfig [98] [107] [99] [107] (faithful [99] [107]) Store.empty (.ok (some o)) ts ∧
      LossFree Store.empty ∧ Store.empty.AtRest ∧ AllOrNothing [98] [107] [99] [107] (.ok (some o)) ts := by
  obtain ⟨ts, hrun, -⟩ := cloneRun_of_eval (faithful [99] [107]) (List.replicate 7 steady)
    (.ok (some ⟨3, 0, abcConfig.md5 abc, .singlePart [abcId]⟩)) 2 (by decide +kernel) (by decide +kernel)
    (by decide +kernel) (by decide +kernel)
  exact ⟨ts, _, hrun, lossFree_empty, ⟨rfl, rfl⟩,
    clone_all_or_nothing abcConfig [98] [107] [99] [107] Store.empty lossFree_empty ⟨rfl, rfl⟩ _ ts hrun⟩

end QssStorage
