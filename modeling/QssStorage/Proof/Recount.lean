import QssStorage.Proof.Rounds

/-!
# What a repair makes of counts

A recount sets every count to the occurrences of the block in the holders that remain, after
the first round has counted records down whatever their counts were worth.

* `needed_kept_iff`: a repair keeps the record and the file of a block that is still named if
  and only if its count outlasted the first round.
-/

namespace QssStorage.Scrub

variable {s : Store} {block : Block} {id : BlockId}

/-! ## Occurrences -/

/-- The references of a stored part. -/
def partRefs : Cell MultiPart → List BlockId
  | .record part => part.blocks
  | .garbage => []

/-- The references that the objects and parts of a store hold. -/
def heldRefs (s : Store) : List BlockId :=
  ((objectTrees s).flatMap fun t => t.2.entries.flatMap fun e => cellRefs e.2) ++ s.parts.entries.flatMap fun e => partRefs e.2

/-- How often the objects and parts of a store name `id`. -/
def occurrences (s : Store) (id : BlockId) : ℕ := (heldRefs s).count id

theorem decodeAll_flatMap {α β : Type} (f : α → List β) (g : Cell α → List β) (hg : ∀ a, g (.record a) = f a) :
    ∀ {cells : List (Cell α)} {as : List α}, decodeAll cells = some as → as.flatMap f = cells.flatMap g := by
  intro cells
  induction cells with
  | nil => intro as h; cases h; rfl
  | cons cell cells ih =>
    intro as h
    match cell, h with
    | .record a, h =>
      obtain ⟨as', h', rfl⟩ := Option.map_eq_some_iff.1 h
      rw [List.flatMap_cons, List.flatMap_cons, hg, ih h']

/-- The walk over the holders finds their references. -/
theorem walkHolders_eq {refs : List BlockId} (h : walkHolders s = some refs) : refs = heldRefs s := by
  unfold walkHolders at h
  split at h
  · rename_i objects parts hobjects hparts
    cases h
    have hob : objects.flatMap Object.blocks =
        ((objectTrees s).flatMap fun t => t.2.entries.map Prod.snd).flatMap cellRefs :=
      decodeAll_flatMap Object.blocks cellRefs (fun _ => rfl) hobjects
    have hpa : parts.flatMap MultiPart.blocks = (s.parts.entries.map Prod.snd).flatMap partRefs :=
      decodeAll_flatMap MultiPart.blocks partRefs (fun _ => rfl) hparts
    rw [hob, hpa, heldRefs, List.flatMap_assoc, List.flatMap_map]
    simp only [List.flatMap_map]
  · cases h

theorem holds_iff_occurrences (hread : HoldersRead s) (id : BlockId) : Holds s id ↔ occurrences s id ≠ 0 := by
  obtain ⟨refs, hrefs⟩ := Option.isSome_iff_exists.1 (walkHolders_isSome.2 hread)
  rw [← mem_walkHolders hrefs, occurrences, ← walkHolders_eq hrefs, Ne, List.count_eq_zero, not_not]

theorem countsAfter_eq {v v1 : Volume} (h : FirstRound v v1) (hclosed : (walkHolders v.store).isSome) :
    countsAfter v v1.store = some (occurrences v1.store) := by
  obtain ⟨refs, hrefs⟩ := Option.isSome_iff_exists.1 (walkHolders_isSome.2 (h.read (walkHolders_isSome.1 hclosed)))
  unfold countsAfter expectedCounts
  rw [if_pos hclosed, hrefs, Option.map_some, walkHolders_eq hrefs]
  rfl

/-- The second round leaves everything but blocks and files alone. -/
theorem Phases.store_eq {c : Config} {width : ℕ} {scrub : Bool} {expected : Option (BlockId → ℕ)}
    {v1 vA vB vC vD vE v' : Volume} (h : Phases c width scrub expected v1 vA vB vC vD vE v') :
    v'.store = { v1.store with blocks := v'.store.blocks, files := v'.store.files } := by
  rw [h.expel.store, h.framed.store]

theorem Phases.occurrences_eq {c : Config} {width : ℕ} {scrub : Bool} {expected : Option (BlockId → ℕ)}
    {v1 vA vB vC vD vE v' : Volume} (h : Phases c width scrub expected v1 vA vB vC vD vE v') :
    occurrences v'.store = occurrences v1.store := by
  rw [h.store_eq]
  rfl

/-! ## Counts after a repair -/

/-- Every record counts its occurrences, and there is none without. -/
def CountsExact (s : Store) : Prop :=
  (∀ id block, recordOf s id = some block → block.rc = occurrences s id) ∧
    ∀ id, (s.blocks.get id).isSome → occurrences s id ≠ 0

/-- From `v` to `v'` no count of a record moves, and no block, object or part record goes. -/
structure CountsUntouched (v v' : Volume) : Prop where
  rc : ∀ id block, recordOf v.store id = some block → ∃ block', recordOf v'.store id = some block' ∧ block'.rc = block.rc
  blocks : ∀ id, (v.store.blocks.get id).isSome → (v'.store.blocks.get id).isSome
  trees : v'.store.trees = v.store.trees
  parts : v'.store.parts = v.store.parts

/-- Every record that no holder will name decodes, and has a count other than zero or one
that the first round moves. -/
def Freeable (s : Store) : Prop :=
  ∀ id, (s.blocks.get id).isSome → ¬ Survives s id → ∃ block, recordOf s id = some block ∧ (block.rc ≠ 0 ∨ id ∈ releasedRefs s)

theorem recounted_rc {n : ℕ} {block block' : Block} (h : recounted n block = some block') : block'.rc = n := by
  unfold recounted at h
  split at h
  · rename_i hrc
    cases h
    exact hrc
  · split at h
    · cases h
    · cases h
      rfl

theorem recounted_eq_none {n : ℕ} : recounted n block = none ↔ n = 0 ∧ block.rc ≠ 0 := by
  unfold recounted
  split
  · rename_i hrc
    simp only [reduceCtorEq, false_iff, not_and, not_not]
    exact fun hn => hrc.trans hn
  rename_i hrc
  split
  · rename_i hn
    simp only [true_iff]
    exact ⟨hn, fun h => hrc (h.trans hn.symm)⟩
  · rename_i hn
    simp only [reduceCtorEq, false_iff, not_and]
    exact fun h => (hn h).elim

/-- The count that releases leave is zero only where it was and nothing was released. -/
theorem remaining_rc_eq_zero (h : remaining s id = some block) :
    block.rc = 0 ↔ ∃ block0, recordOf s id = some block0 ∧ block0.rc = 0 ∧ id ∉ releasedRefs s := by
  unfold remaining at h
  split at h
  · cases h
  rename_i block0 hrecord
  split at h
  · rename_i hlt
    cases h
    have hcount : (releasedRefs s).count id = 0 ↔ id ∉ releasedRefs s := List.count_eq_zero
    by_cases hzero : (releasedRefs s).count id = 0
    · simp only [hzero, if_true]
      exact ⟨fun hrc => ⟨block0, hrecord, hrc, hcount.1 hzero⟩, fun ⟨b, hb, hrc, _⟩ => by
        cases hrecord.symm.trans hb
        exact hrc⟩
    · simp only [hzero, if_false]
      refine ⟨fun hrc => ?_, fun ⟨_, _, _, hnot⟩ => (hzero (hcount.2 hnot)).elim⟩
      omega
  · cases h

theorem FirstRound.undecoded {v v1 : Volume} (h : FirstRound v v1) (hnone : recordOf v.store id = none) :
    v1.store.blocks.get id = v.store.blocks.get id := by
  rw [h.shed.released.blocks]
  match hget : v.store.blocks.get id with
  | none => exact lessen_iterate_none _
  | some .garbage => exact lessen_iterate_garbage _
  | some (.record block) =>
    cases (recordOf_eq_some.2 hget).symm.trans hnone

section Rounds

variable {c : Config} {width : ℕ} {scrub : Bool} {v v1 v' : Volume} (h : Rounds c width scrub v v1 v')
include h

theorem Rounds.undecoded {id : BlockId} (hnone : recordOf v.store id = none) :
    v'.store.blocks.get id = v.store.blocks.get id := by
  obtain ⟨hfirst, vA, vB, vC, vD, vE, hphases⟩ := h
  have h1 := hfirst.undecoded hnone
  exact (hphases.legible.none ((recordOf_congr h1).trans hnone)).trans h1

/-- A record the first round uses up is gone. -/
theorem Rounds.used_up {id : BlockId} {block : Block} (hrecord : recordOf v.store id = some block)
    (hnone : remaining v.store id = none) : v'.store.blocks.get id = none := by
  obtain ⟨hfirst, vA, vB, vC, vD, vE, hphases⟩ := h
  have hspent := (hfirst.spent_iff id (diskDepth id block.depth)).2 ⟨block, hrecord, hnone, rfl⟩
  obtain ⟨_, -, hgone, -⟩ := hspent
  have h1 : v1.store.blocks.get id = none := (hfirst.shed.released.blocks id).trans hgone
  rw [hphases.legible.none (by rw [hfirst.recordOf_eq, hnone]), h1]

/-- A record that is left after the first round. -/
theorem Rounds.record {id : BlockId} {block : Block} (hrecord : remaining v.store id = some block) :
    ∃ block', Mended c width scrub v1 id block block' ∧
      recordOf v'.store id = recountedBy (countsAfter v v1.store) id block' ∧
      v'.store.blocks.get id = (recordOf v'.store id).map .record := by
  obtain ⟨hfirst, vA, vB, vC, vD, vE, hphases⟩ := h
  rw [← hfirst.recordOf_eq] at hrecord
  obtain ⟨block', hmended, heq⟩ := hphases.recordOf_eq hrecord
  exact ⟨block', hmended, heq, hphases.legible.some hrecord⟩

theorem Rounds.occurrences_eq : occurrences v'.store = occurrences v1.store := by
  obtain ⟨-, vA, vB, vC, vD, vE, hphases⟩ := h
  exact hphases.occurrences_eq

/-- What is still named after a repair is what survives the first round. -/
theorem Rounds.survives_iff (hclosed : (walkHolders v.store).isSome) (id : BlockId) :
    Survives v.store id ↔ occurrences v'.store id ≠ 0 := by
  rw [← h.first.holds_iff, h.occurrences_eq]
  exact holds_iff_occurrences (h.first.read (walkHolders_isSome.1 hclosed)) id

/-- With a closed holder set the counts are set to the occurrences. -/
theorem Rounds.recounted_eq (hclosed : (walkHolders v.store).isSome) {id : BlockId} (block : Block) :
    recountedBy (countsAfter v v1.store) id block = recounted (occurrences v'.store id) block := by
  rw [countsAfter_eq h.first hclosed, h.occurrences_eq]
  rfl

/-- Where a record that is left comes from. -/
theorem Rounds.origin {id : BlockId} {block' : Block} (hrecord : recordOf v'.store id = some block') :
    ∃ block blockM, remaining v.store id = some block ∧ Mended c width scrub v1 id block blockM ∧
      recountedBy (countsAfter v v1.store) id blockM = some block' := by
  cases hbefore : recordOf v.store id with
  | none =>
    rw [recordOf_congr (h.undecoded hbefore), hbefore] at hrecord
    cases hrecord
  | some block0 =>
    cases hrem : remaining v.store id with
    | none =>
      rw [recordOf_eq_some, h.used_up hbefore hrem] at hrecord
      cases hrecord
    | some block =>
      obtain ⟨blockM, hmended, heq, -⟩ := h.record hrem
      exact ⟨block, blockM, rfl, hmended, heq.symm.trans hrecord⟩

/-- A closed holder set: the counts come out exact if every record that nothing holds can be freed. -/
theorem Rounds.countsExact_of_freeable (hclosed : (walkHolders v.store).isSome) (hfree : Freeable v.store) :
    CountsExact v'.store := by
  refine ⟨fun id block' hblock' => ?_, fun id hsome hzero => ?_⟩
  · obtain ⟨_, _, -, -, heq⟩ := h.origin hblock'
    rw [h.recounted_eq hclosed] at heq
    exact recounted_rc heq
  -- a record without occurrences would have been freed
  have hnot : ¬ Survives v.store id := fun hs => (h.survives_iff hclosed id).1 hs hzero
  cases hrecord : recordOf v.store id with
  | none =>
    rw [h.undecoded hrecord] at hsome
    obtain ⟨block, hblock, -⟩ := hfree id hsome hnot
    rw [hrecord] at hblock
    cases hblock
  | some block0 =>
    obtain ⟨block, hblock, hrc⟩ := hfree id (by rw [recordOf_eq_some.1 hrecord]; rfl) hnot
    cases hrem : remaining v.store id with
    | none =>
      rw [h.used_up hrecord hrem] at hsome
      cases hsome
    | some block1 =>
      obtain ⟨blockM, hmended, heq, hcell⟩ := h.record hrem
      have hrcM : blockM.rc = block1.rc := by rw [hmended.same]
      have hne : blockM.rc ≠ 0 := by
        rw [hrcM]
        intro hz
        obtain ⟨b, hb, hbz, hnotin⟩ := (remaining_rc_eq_zero hrem).1 hz
        cases hblock.symm.trans hb
        exact hrc.elim (fun hrc => hrc hbz) hnotin
      rw [h.recounted_eq hclosed, recounted_eq_none.2 ⟨hzero, hne⟩] at heq
      rw [heq] at hcell
      rw [hcell] at hsome
      cases hsome

/-- The records that nothing holds and that stay. -/
theorem Rounds.freeable_of_countsExact (hclosed : (walkHolders v.store).isSome) (hexact : CountsExact v'.store) :
    Freeable v.store := by
  intro id hsome hnot
  have hzero : occurrences v'.store id = 0 := by
    by_contra hne
    exact hnot ((h.survives_iff hclosed id).2 hne)
  have hgone : v'.store.blocks.get id = none := by
    rw [← Option.not_isSome_iff_eq_none]
    exact fun hs => hexact.2 id hs hzero
  cases hrecord : recordOf v.store id with
  | none =>
    rw [← h.undecoded hrecord, hgone] at hsome
    cases hsome
  | some block =>
    refine ⟨block, rfl, ?_⟩
    by_contra hcon
    push Not at hcon
    obtain ⟨hrc, hnotin⟩ := hcon
    have hcount : (releasedRefs v.store).count id = 0 := List.count_eq_zero.2 hnotin
    have hrem : remaining v.store id = some block := by
      unfold remaining
      rw [hrecord]
      have hpos := lasts_pos block.rc
      simp only [hcount, if_true]
      exact if_pos (by omega)
    obtain ⟨blockM, hmended, heq, hcell⟩ := h.record hrem
    have hrcM : blockM.rc = 0 := by rw [hmended.same]; exact hrc
    rw [h.recounted_eq hclosed, hzero] at heq
    rw [heq, recounted, if_pos hrcM, hgone] at hcell
    cases hcell

/-- Without a closed holder set. -/
theorem Rounds.countsUntouched (hopen : ¬ (walkHolders v.store).isSome) : CountsUntouched v v' := by
  have hreleased : releasedRefs v.store = [] := by
    unfold releasedRefs
    rw [if_neg hopen]
  have hrem : ∀ id block, recordOf v.store id = some block → remaining v.store id = some block := by
    intro id block hrecord
    unfold remaining
    have hpos := lasts_pos block.rc
    rw [hrecord]
    simp only [hreleased, List.count_nil, if_true]
    exact if_pos (by omega)
  have hrecord : ∀ id block, recordOf v.store id = some block →
      ∃ block', recordOf v'.store id = some block' ∧ block'.rc = block.rc := by
    intro id block hrecord
    obtain ⟨blockM, hmended, heq, -⟩ := h.record (hrem id block hrecord)
    refine ⟨blockM, ?_, by rw [hmended.same]⟩
    rw [heq, countsAfter, if_neg hopen]
    rfl
  have hstore : v'.store.trees = v1.store.trees ∧ v'.store.parts = v1.store.parts := by
    obtain ⟨-, vA, vB, vC, vD, vE, hphases⟩ := h
    rw [hphases.store_eq]
    exact ⟨rfl, rfl⟩
  refine ⟨hrecord, fun id hsome => ?_, ?_, ?_⟩
  · cases hdec : recordOf v.store id with
    | none => rwa [h.undecoded hdec]
    | some block =>
      obtain ⟨block', hblock', -⟩ := hrecord id block hdec
      rw [recordOf_eq_some.1 hblock']
      rfl
  · rw [hstore.1]
    exact OrdMap.eq_of_get fun t => h.first.shed.tree_kept t fun hT => hopen hT.1
  · rw [hstore.2]
    exact OrdMap.eq_of_get fun k => h.first.shed.part_kept k fun hP => hopen hP.1

end Rounds

theorem fsckRepair_of_repair {c : Config} {width : ℕ} {scrub : Bool} {v v' : Volume} {report : Report}
    (hrun : run c width scrub v = some report) (hrepair : repair c width report v = some v') :
    fsckRepair c width scrub v = some v' := by
  unfold fsckRepair
  simp only [hrun, hrepair]

/-- **The counts a repair leaves.** If the report closed the holder set, they are exact if and only
if every record that no holder will name decodes and is not at zero untouched; if it did
not, no count moves and nothing goes. -/
theorem counts_exact_iff (c : Config) (width : ℕ) (scrub : Bool) (v v' : Volume) (report : Report)
    (hrun : run c width scrub v = some report) (hrepair : repair c width report v = some v') :
    (report.ran .recount = true → (CountsExact v'.store ↔ Freeable v.store)) ∧
      (report.ran .recount = false → CountsUntouched v v') := by
  obtain ⟨v1, hrounds⟩ := fsckRepair_rounds (fsckRepair_of_repair hrun hrepair)
  rw [(run_ran hrun).1]
  refine ⟨fun hclosed => ?_, fun hopen => hrounds.countsUntouched (by rw [hopen]; exact Bool.false_ne_true)⟩
  exact ⟨hrounds.freeable_of_countsExact hclosed, hrounds.countsExact_of_freeable hclosed⟩

/-- A record that counts one reference too many is set right. -/
theorem counts_exact_inflated : ∃ report v',
    run abcConfig 32 false (abcVolume (OrdMap.insert ∅ abcId (.record ⟨3, 1, 2, false, 0⟩))) = some report ∧
    repair abcConfig 32 report (abcVolume (OrdMap.insert ∅ abcId (.record ⟨3, 1, 2, false, 0⟩))) = some v' ∧
    report.ran .recount = true ∧ recordOf v'.store abcId = some ⟨3, 1, 1, false, 0⟩ ∧
    (CountsExact v'.store ↔ Freeable (abcVolume (OrdMap.insert ∅ abcId (.record ⟨3, 1, 2, false, 0⟩))).store) := by
  have hrun : ((run abcConfig 32 false (abcVolume (OrdMap.insert ∅ abcId (.record ⟨3, 1, 2, false, 0⟩)))).bind fun report =>
      (repair abcConfig 32 report (abcVolume (OrdMap.insert ∅ abcId (.record ⟨3, 1, 2, false, 0⟩)))).map fun v' =>
        (report.ran .recount, recordOf v'.store abcId)) = some (true, some ⟨3, 1, 1, false, 0⟩) := by decide +kernel
  obtain ⟨report, hreport, hrun⟩ := Option.bind_eq_some_iff.1 hrun
  obtain ⟨v', hrepair, hout⟩ := Option.map_eq_some_iff.1 hrun
  obtain ⟨hran, hrecord⟩ := Prod.mk.inj hout
  exact ⟨report, v', hreport, hrepair, hran, hrecord,
    (counts_exact_iff _ _ _ _ _ _ hreport hrepair).1 hran⟩

/-- A block record at count zero that nothing names, and its file. -/
def zeroVolume : Volume :=
  { abcVolume (OrdMap.insert ∅ abcId (.record ⟨3, 1, 0, false, 0⟩)) with
    store := { (abcVolume (OrdMap.insert ∅ abcId (.record ⟨3, 1, 0, false, 0⟩))).store with trees := ∅, buckets := ∅ } }

/-- A record at zero is taken for one whose count is right, and stays though nothing names it. -/
theorem zero_record_stays : ∃ report v', run abcConfig 32 false zeroVolume = some report ∧
    repair abcConfig 32 report zeroVolume = some v' ∧ report.ran .recount = true ∧ ¬ CountsExact v'.store := by
  have hrun : ((run abcConfig 32 false zeroVolume).bind fun report => (repair abcConfig 32 report zeroVolume).map fun v' =>
      (report.ran .recount, recordOf v'.store abcId, occurrences v'.store abcId)) =
        some (true, some ⟨3, 1, 0, false, 0⟩, 0) := by decide +kernel
  obtain ⟨report, hreport, hrun⟩ := Option.bind_eq_some_iff.1 hrun
  obtain ⟨v', hrepair, hout⟩ := Option.map_eq_some_iff.1 hrun
  obtain ⟨hran, hrecord, hzero⟩ : _ ∧ _ ∧ _ := by simpa only [Prod.mk.injEq] using hout
  refine ⟨report, v', hreport, hrepair, hran, fun hexact => hexact.2 abcId ?_ hzero⟩
  rw [recordOf_eq_some.1 hrecord]
  rfl

/-! ## Blocks that are still named -/

theorem accepts_diskDepth {width : ℕ} (depth : ℕ) : accepts width id (diskDepth id depth) = true ↔ id.len = width := by
  have hpos := id.len_pos
  unfold accepts diskDepth
  simp only [Bool.and_eq_true, decide_eq_true_eq]
  omega

theorem remaining_isSome (hrecord : recordOf s id = some block) :
    (remaining s id).isSome ↔ (releasedRefs s).count id < lasts block.rc := by
  unfold remaining
  rw [hrecord]
  dsimp only
  split <;> simp [*]

/-- The depth and the flag of a record outlast the first round. -/
theorem remaining_same {block block' : Block} (hrecord : recordOf s id = some block)
    (h : remaining s id = some block') : block' = { block with rc := block'.rc } := by
  unfold remaining at h
  rw [hrecord] at h
  dsimp only at h
  split at h
  · cases h
    rfl
  · cases h

/-- **A repair keeps the record and the file of a block that some holder still names** if and
only if the block is of the store's width and its count outlasts the releases of the first round. -/
theorem needed_kept_iff (c : Config) (width : ℕ) (scrub : Bool) (v v' : Volume) (report : Report) (b : BlockId)
    (block : Block) (bytes : Bytes) (hrun : run c width scrub v = some report)
    (hrepair : repair c width report v = some v') (hclosed : report.ran .recount = true) (hnamed : Holds v'.store b)
    (hrecord : recordOf v.store b = some block) (hfile : file v b (diskDepth b block.depth) = some bytes)
    (hintact : c.hash bytes = b) :
    ((recordOf v'.store b).isSome ∧ file v' b (diskDepth b block.depth) = some bytes) ↔
      b.len = width ∧ (releasedRefs v.store).count b < lasts block.rc := by
  obtain ⟨v1, hrounds⟩ := fsckRepair_rounds (fsckRepair_of_repair hrun hrepair)
  rw [(run_ran hrun).1] at hclosed
  obtain ⟨vA, vB, vC, vD, vE, hphases⟩ := hrounds.second
  rw [← remaining_isSome hrecord, ← accepts_diskDepth block.depth]
  constructor
  · rintro ⟨hsome, hf⟩
    refine ⟨(hphases.file_eq_some.1 hf).2.1, ?_⟩
    by_contra hnone
    rw [Option.not_isSome_iff_eq_none] at hnone
    obtain ⟨block', hblock'⟩ := Option.isSome_iff_exists.1 hsome
    rw [recordOf_eq_some, hrounds.used_up hrecord hnone] at hblock'
    cases hblock'
  · rintro ⟨haccepts, hrem⟩
    obtain ⟨block1, hblock1⟩ := Option.isSome_iff_exists.1 hrem
    have hdepth : block1.depth = block.depth := by rw [remaining_same hrecord hblock1]
    have hheld : occurrences v'.store b ≠ 0 := by
      have hread : HoldersRead v'.store := by
        have hread1 := hrounds.first.read (walkHolders_isSome.1 hclosed)
        rw [hphases.store_eq]
        exact hread1
      exact (holds_iff_occurrences hread b).1 hnamed
    have hf1 : file v1 b (diskDepth b block1.depth) = some bytes := by
      rw [hrounds.first.file_eq hrem, hdepth, hfile]
    refine ⟨?_, ?_⟩
    · obtain ⟨blockM, -, heq, -⟩ := hrounds.record hblock1
      rw [heq, hrounds.recounted_eq hclosed, Option.isSome_iff_ne_none]
      exact fun hnone => hheld (recounted_eq_none.1 hnone).1
    rw [← hdepth] at haccepts ⊢
    refine hphases.own_file ((hrounds.first.recordOf_eq b).trans hblock1) hf1 haccepts ?_ ?_
    · rintro ⟨-, -, hbad⟩
      exact Good.not_bad ⟨bytes, hf1, hintact⟩ hbad
    · intro hunheld
      have hnot := ((hrounds.first.unheld_iff b).1 hunheld).2
      exact (hnot ((hrounds.survives_iff hclosed b).2 hheld)).elim

/-- The object of bucket `b`, and one of the half-deleted bucket `d` with the same block. -/
def strandedVolume (rc : ℕ) : Volume :=
  { abcVolume (OrdMap.insert ∅ abcId (.record ⟨3, 1, rc, false, 0⟩)) with
    store := { (abcVolume (OrdMap.insert ∅ abcId (.record ⟨3, 1, rc, false, 0⟩))).store with
      trees := OrdMap.insert
        (abcVolume (OrdMap.insert ∅ abcId (.record ⟨3, 1, rc, false, 0⟩))).store.trees [100]
        (OrdMap.insert ∅ [107] (.record ⟨3, 0, [], .singlePart [abcId]⟩)) } }

/-- What a repair of it leaves: the report's recount, the object, the block record and its file. -/
def strandedOutcome (rc : ℕ) : Option (Bool × Option (Cell Object) × Option Block × Option Bytes) :=
  (run abcConfig 32 false (strandedVolume rc)).bind fun report => (repair abcConfig 32 report (strandedVolume rc)).map fun v' =>
    (report.ran .recount, (v'.store.tree [98]).get [107], recordOf v'.store abcId, file v' abcId 1)

theorem strandedOutcome_eq {rc : ℕ} {record : Option Block} {f : Option Bytes}
    (h : strandedOutcome rc = some (true, some (.record ⟨3, 0, [], .singlePart [abcId]⟩), record, f)) :
    ∃ report v', run abcConfig 32 false (strandedVolume rc) = some report ∧
      repair abcConfig 32 report (strandedVolume rc) = some v' ∧ report.ran .recount = true ∧ Holds v'.store abcId ∧
      recordOf v'.store abcId = record ∧ file v' abcId 1 = f := by
  obtain ⟨report, hreport, h⟩ := Option.bind_eq_some_iff.1 h
  obtain ⟨v', hrepair, hout⟩ := Option.map_eq_some_iff.1 h
  obtain ⟨hran, hobject, hrecord, hf⟩ : _ ∧ _ ∧ _ ∧ _ := by simpa only [Prod.mk.injEq] using hout
  refine ⟨report, v', hreport, hrepair, hran, ?_, hrecord, hf⟩
  cases htree : v'.store.trees.get [98] with
  | none => rw [Store.tree, htree] at hobject; cases hobject
  | some tree =>
    rw [Store.tree, htree] at hobject
    exact .inl ⟨[98], tree, [107], _, htree, rfl, hobject, List.mem_singleton_self _⟩

/-- With a count that is right the block outlasts the teardown. -/
theorem needed_kept_counted : ∃ report v', run abcConfig 32 false (strandedVolume 2) = some report ∧
    repair abcConfig 32 report (strandedVolume 2) = some v' ∧ report.ran .recount = true ∧ Holds v'.store abcId ∧
    (((recordOf v'.store abcId).isSome ∧ file v' abcId 1 = some abc) ↔
      abcId.len = 32 ∧ (releasedRefs (strandedVolume 2).store).count abcId < lasts 2) := by
  obtain ⟨report, v', hrun, hrepair, hran, hnamed, -, -⟩ :=
    strandedOutcome_eq (show strandedOutcome 2 = some (true, _, some ⟨3, 1, 1, false, 0⟩, some abc) by decide +kernel)
  exact ⟨report, v', hrun, hrepair, hran, hnamed,
    needed_kept_iff _ _ _ _ _ _ abcId ⟨3, 1, 2, false, 0⟩ abc hrun hrepair hran hnamed (by decide +kernel)
      (by decide +kernel) rfl⟩

/-- With a count of one the teardown of the half-deleted bucket frees the block of the other. -/
theorem needed_block_freed : ∃ report v', run abcConfig 32 false (strandedVolume 1) = some report ∧
    repair abcConfig 32 report (strandedVolume 1) = some v' ∧ report.ran .recount = true ∧ Holds v'.store abcId ∧
    recordOf (strandedVolume 1).store abcId = some ⟨3, 1, 1, false, 0⟩ ∧ file (strandedVolume 1) abcId 1 = some abc ∧
    abcConfig.hash abc = abcId ∧ recordOf v'.store abcId = none ∧ file v' abcId 1 = none := by
  obtain ⟨report, v', hrun, hrepair, hran, hnamed, hrecord, hf⟩ :=
    strandedOutcome_eq (show strandedOutcome 1 = some (true, _, none, none) by decide +kernel)
  exact ⟨report, v', hrun, hrepair, hran, hnamed, by decide +kernel, by decide +kernel, rfl, hrecord, hf⟩

end QssStorage.Scrub
