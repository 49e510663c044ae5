import QssStorage.Proof.Sweep

/-!
# What a repair plans

The walks of the second round in terms of records and files, what each planner makes of
them, and what the phases whose actions need no look at each other do to files.

* `applyAll_corrupt`, `applyAll_degradings`, `applyAll_deletions`, `applyAll_foreign`: the phases.
-/

namespace QssStorage.Scrub

open List

variable {v : Volume} {width d : ℕ} {f : Finding} {id : BlockId} {s : Store} {a : RepairAction} {p : Bytes}
variable {scrub : Bool} {report : Report} {disk : DiskWalk} {findings : List Finding}

/-! ## The walks -/

theorem diskDepth_of_accepts (h : accepts width id d = true) : diskDepth id d = d := by
  simp only [accepts, Bool.and_eq_true, decide_eq_true_eq] at h
  unfold diskDepth
  omega

theorem mem_walkDisk {f : BlockFile} :
    f ∈ (walkDisk width v).files ↔ accepts width f.id f.depth = true ∧ file v f.id f.depth = some f.bytes := by
  unfold walkDisk file
  simp only [mem_filterMap]
  constructor
  · rintro ⟨⟨k, bytes⟩, he, hf⟩
    split at hf
    · rename_i haccepts
      cases hf
      exact ⟨haccepts, OrdMap.mem_entries.1 he⟩
    · cases hf
  · rintro ⟨haccepts, hget⟩
    exact ⟨(toLex (f.id, f.depth), f.bytes), OrdMap.mem_entries.2 hget, if_pos haccepts⟩

theorem present_iff : present (walkDisk width v).files id d = true ↔ accepts width id d = true ∧ (file v id d).isSome := by
  unfold present
  simp only [any_eq_true, Bool.and_eq_true, decide_eq_true_eq]
  constructor
  · rintro ⟨f, hf, rfl, rfl⟩
    obtain ⟨haccepts, hget⟩ := mem_walkDisk.1 hf
    exact ⟨haccepts, by rw [hget]; rfl⟩
  · rintro ⟨haccepts, hsome⟩
    obtain ⟨bytes, hget⟩ := Option.isSome_iff_exists.1 hsome
    exact ⟨⟨id, d, bytes⟩, mem_walkDisk.2 ⟨haccepts, hget⟩, rfl, rfl⟩

theorem mem_elsewhere {depth d : ℕ} :
    d ∈ elsewhere (walkDisk width v) id depth ↔ accepts width id d = true ∧ (file v id d).isSome ∧ d ≠ depth := by
  unfold elsewhere
  rw [mem_insertionSort, mem_filter, mem_filterMap]
  simp only [decide_eq_true_eq]
  constructor
  · rintro ⟨⟨f, hf, hd⟩, hne⟩
    split at hd
    · rename_i hid
      cases hd
      obtain ⟨haccepts, hget⟩ := mem_walkDisk.1 hf
      rw [hid] at haccepts hget
      exact ⟨haccepts, by rw [hget]; rfl, hne⟩
    · cases hd
  · rintro ⟨haccepts, hsome, hne⟩
    obtain ⟨bytes, hget⟩ := Option.isSome_iff_exists.1 hsome
    exact ⟨⟨⟨id, d, bytes⟩, mem_walkDisk.2 ⟨haccepts, hget⟩, if_pos rfl⟩, hne⟩

theorem walkDisk_distinct (width : ℕ) (v : Volume) :
    (walkDisk width v).files.Pairwise fun a b => a.id = b.id → a.depth ≠ b.depth := by
  unfold walkDisk
  rw [pairwise_filterMap]
  refine v.store.files.sorted.imp ?_
  rintro ⟨k, bytes⟩ ⟨k', bytes'⟩ hlt f hf f' hf' hid hdepth
  have hk : f.id = (ofLex k).1 ∧ f.depth = (ofLex k).2 := by
    dsimp only at hf
    split at hf <;> cases hf
    exact ⟨rfl, rfl⟩
  have hk' : f'.id = (ofLex k').1 ∧ f'.depth = (ofLex k').2 := by
    dsimp only at hf'
    split at hf' <;> cases hf'
    exact ⟨rfl, rfl⟩
  refine ne_of_lt hlt (ofLex.injective (Prod.ext ?_ ?_))
  · rw [← hk.1, ← hk'.1, hid]
  · rw [← hk.2, ← hk'.2, hdepth]

theorem elsewhere_sorted (id : BlockId) (depth : ℕ) : (elsewhere (walkDisk width v) id depth).Pairwise (· < ·) := by
  have hsorted : (elsewhere (walkDisk width v) id depth).Pairwise (· ≤ ·) := pairwise_insertionSort _ _
  have hnodup : (elsewhere (walkDisk width v) id depth).Nodup := by
    refine (perm_insertionSort _ _).nodup_iff.2 (List.Nodup.filter _ ?_)
    refine (pairwise_filterMap).2 ((walkDisk_distinct width v).imp ?_)
    intro f f' hne d hd d' hd'
    split at hd
    · rename_i hid
      split at hd'
      · rename_i hid'
        cases hd
        cases hd'
        exact hne (hid.trans hid'.symm)
      · cases hd'
    · cases hd
  exact (hsorted.and hnodup).imp fun h => lt_of_le_of_ne h.1 h.2

theorem mem_walkRecords {block : Block} : (id, block) ∈ walkRecords s ↔ recordOf s id = some block := by
  unfold walkRecords recordOf
  simp only [mem_filterMap]
  constructor
  · rintro ⟨⟨k, cell⟩, he, hr⟩
    have hget := OrdMap.mem_entries.1 he
    match cell, hr, hget with
    | .record block, hr, hget => cases hr; simp only [hget]
  intro h
  split at h
  · rename_i block' hget
    cases h
    exact ⟨(id, .record block), OrdMap.mem_entries.2 hget, rfl⟩
  · cases h
  · cases h

theorem walkRecords_distinct (s : Store) : (walkRecords s).Pairwise fun a b => a.1 ≠ b.1 := by
  unfold walkRecords
  rw [pairwise_filterMap]
  refine s.blocks.sorted.imp ?_
  rintro ⟨k, cell⟩ ⟨k', cell'⟩ hlt r hr r' hr'
  match cell, cell', hr, hr' with
  | .record block, .record block', hr, hr' =>
    cases hr
    cases hr'
    exact ne_of_lt hlt

/-- The copy does not hash to its address, and a scrub saw that. -/
def SetAside (c : Config) (width : ℕ) (scrub : Bool) (id : BlockId) (f : ℕ → Option Bytes) (d : ℕ) : Prop :=
  scrub = true ∧ accepts width id d = true ∧ Bad c id f d

/-! ## Corruption verdicts -/

theorem kind_recount {refs : List BlockId} (h : f ∈ recount refs s) : f.kind ≠ .corruptBlock := by
  unfold recount at h
  rcases mem_append.1 h with h | h
  · obtain ⟨id, -, hf⟩ := mem_filterMap.1 h
    split at hf
    · cases hf; exact nofun
    · split_ifs at hf <;> cases hf <;> exact nofun
  · obtain ⟨r, -, hf⟩ := mem_filterMap.1 h
    split_ifs at hf
    cases hf
    exact nofun

theorem kind_diskSweep (h : f ∈ diskSweep disk s) : f.kind ≠ .corruptBlock := by
  unfold diskSweep at h
  rcases mem_append.1 h with h | h
  · obtain ⟨file, -, hf⟩ := mem_filterMap.1 h
    split at hf
    · cases hf; exact nofun
    · split_ifs at hf <;> cases hf <;> exact nofun
  · obtain ⟨path, -, rfl⟩ := mem_map.1 h
    exact nofun

theorem kind_danglingSweep (h : f ∈ danglingSweep disk s) : f.kind ≠ .corruptBlock := by
  unfold danglingSweep at h
  obtain ⟨r, -, hf⟩ := mem_filterMap.1 h
  split_ifs at hf <;> cases hf <;> exact nofun

theorem kind_multipartReport (hrun : multipartReport s = some findings) (h : f ∈ findings) : f.kind ≠ .corruptBlock := by
  unfold multipartReport at hrun
  split at hrun
  · cases hrun
    rcases mem_append.1 h with h | h
    · obtain ⟨_, -, rfl⟩ := mem_map.1 h
      exact nofun
    · obtain ⟨part, -, hf⟩ := mem_filterMap.1 h
      split_ifs at hf
      cases hf
      exact nofun
  · cases hrun

theorem kind_recordFindings (h : f ∈ recordFindings v) : f.kind = .undecodableBlockRecord := by
  unfold recordFindings at h
  rcases mem_append.1 h with h | h
  · obtain ⟨_, -, rfl⟩ := mem_map.1 h
    rfl
  · obtain ⟨_, -, rfl⟩ := mem_map.1 h
    rfl

theorem kind_bucketIntegrity (hrun : bucketIntegrity s = some findings) (h : f ∈ findings) : f.kind = .halfDeletedBucket := by
  unfold bucketIntegrity at hrun
  obtain ⟨trees, -, rfl⟩ := Option.map_eq_some_iff.1 hrun
  obtain ⟨_, -, rfl⟩ := mem_map.1 h
  rfl

/-- **The findings of a report**, pass by pass. -/
theorem mem_findings {c : Config} (h : run c width scrub v = some report) : f ∈ report.findings ↔ f ∈ recordFindings v ∨
      (∃ refs, walkHolders v.store = some refs ∧ f ∈ recount refs v.store) ∨
      (walkHolders v.store = none ∧ f = ⟨.holderEnumerationFailed, none, none⟩) ∨
      f ∈ diskSweep (walkDisk width v) v.store ∨ f ∈ danglingSweep (walkDisk width v) v.store ∨
      (scrub = true ∧ f ∈ corruptionScrub c (walkDisk width v)) ∨
      (∃ findings, multipartReport v.store = some findings ∧ f ∈ findings) ∨
      (multipartReport v.store = none ∧ f = ⟨.holderEnumerationFailed, none, none⟩) ∨
      ∃ findings, bucketIntegrity v.store = some findings ∧ f ∈ findings := by
  unfold run at h
  obtain ⟨buckets, hb, rfl⟩ := Option.map_eq_some_iff.1 h
  simp only [mem_append, or_assoc, hb, Option.some.injEq, exists_eq_left']
  refine or_congr_right ?_
  have hscrub : f ∈ (if scrub = true then (([.corruptionScrub], corruptionScrub c (walkDisk width v)) : List Pass × List Finding)
      else ([], [])).2 ↔ scrub = true ∧ f ∈ corruptionScrub c (walkDisk width v) := by
    cases scrub <;> simp
  rw [hscrub]
  cases walkHolders v.store <;> cases multipartReport v.store <;> simp

/-- The corrupt files of a report are those of the scrub pass. -/
theorem run_corrupt {c : Config} (h : run c width scrub v = some report) (hkind : f.kind = .corruptBlock) :
    f ∈ report.findings ↔ scrub = true ∧ f ∈ corruptionScrub c (walkDisk width v) := by
  rw [mem_findings h]
  constructor
  · rintro (hf | ⟨_, -, hf⟩ | ⟨-, rfl⟩ | hf | hf | hf | ⟨_, hrun, hf⟩ | ⟨-, rfl⟩ | ⟨_, hrun, hf⟩)
    · rw [kind_recordFindings hf] at hkind; cases hkind
    · exact absurd hkind (kind_recount hf)
    · cases hkind
    · exact absurd hkind (kind_diskSweep hf)
    · exact absurd hkind (kind_danglingSweep hf)
    · exact hf
    · exact absurd hkind (kind_multipartReport hrun hf)
    · cases hkind
    · rw [kind_bucketIntegrity hrun hf] at hkind; cases hkind
  · exact fun hf => .inr (.inr (.inr (.inr (.inr (.inl hf)))))

/-- What is planned on the verdicts of a report, in a volume some of whose files are gone. -/
theorem mem_planCorrupt {c : Config} {v v1 : Volume} (h : run c width scrub v = some report)
    (hshrinks : ∀ id d bytes, file v1 id d = some bytes → file v id d = some bytes) :
    a ∈ planCorrupt report (walkDisk width v1) ↔
      ∃ id d, a = .quarantineCorrupt id d ∧ SetAside c width scrub id (file v1 id) d := by
  have hscrub : ∀ id d, (⟨.corruptBlock, some id, some (.block id d)⟩ : Finding) ∈ report.findings ↔
      scrub = true ∧ accepts width id d = true ∧ Bad c id (file v id) d := by
    intro id d
    rw [run_corrupt h rfl]
    refine and_congr_right fun _ => ?_
    unfold corruptionScrub
    simp only [mem_filterMap]
    constructor
    · rintro ⟨f, hf, hfinding⟩
      split at hfinding
      · rename_i hhash
        cases hfinding
        obtain ⟨haccepts, hget⟩ := mem_walkDisk.1 hf
        exact ⟨haccepts, f.bytes, hget, hhash⟩
      · cases hfinding
    · rintro ⟨haccepts, bytes, hget, hhash⟩
      exact ⟨⟨id, d, bytes⟩, mem_walkDisk.2 ⟨haccepts, hget⟩, if_pos hhash⟩
  unfold planCorrupt
  rw [mem_filterMap]
  constructor
  · rintro ⟨⟨kind, block, path⟩, hf, ha⟩
    dsimp only at ha
    split at ha
    · rename_i block' id d
      split at ha
      · rename_i hcond
        simp only [Bool.and_eq_true, decide_eq_true_eq] at hcond
        obtain ⟨rfl, hpresent⟩ := hcond
        cases ha
        obtain ⟨hs, haccepts, bytes, hget, hhash⟩ := (hscrub id d).1 hf
        obtain ⟨-, hsome⟩ := present_iff.1 hpresent
        obtain ⟨bytes', hget'⟩ := Option.isSome_iff_exists.1 hsome
        have heq := hshrinks id d bytes' hget'
        cases hget.symm.trans heq
        exact ⟨id, d, rfl, hs, haccepts, bytes, hget', hhash⟩
      · cases ha
    · cases ha
  · rintro ⟨id, d, rfl, hs, haccepts, bytes, hget, hhash⟩
    refine ⟨_, (hscrub id d).2 ⟨hs, haccepts, bytes, hshrinks id d bytes hget, hhash⟩, ?_⟩
    have hpresent : present (walkDisk width v1).files id d = true :=
      present_iff.2 ⟨haccepts, by rw [hget]; rfl⟩
    simp only [decide_true, hpresent, Bool.and_self, if_true]

/-! ## The phases of a plan -/

section Phases

variable (c : Config)

/-- Corrupt files are set aside, and their records flagged. -/
theorem applyAll_corrupt : ∀ (l : List RepairAction) (v : Volume), (∀ a ∈ l, ∃ id d, a = .quarantineCorrupt id d) →
    Sweeps (fun _ _ => False) (fun id d => .quarantineCorrupt id d ∈ l) v (applyAll c l v) ∧
      Degrades (fun id => ∃ d, .quarantineCorrupt id d ∈ l) v (applyAll c l v) ∧ Framed v (applyAll c l v) := by
  intro l
  induction l with
  | nil =>
    intro v _
    exact ⟨(Sweeps.refl v).congr (fun _ _ => Iff.rfl) (fun _ _ => by simp), (Degrades.refl v).congr fun _ => by simp, .refl v⟩
  | cons a l ih =>
    intro v hl
    obtain ⟨id, d, rfl⟩ := hl a mem_cons_self
    have ht := quarantineCorrupt_tends id d v
    obtain ⟨hs, hflag, hframed⟩ := ih (quarantineCorrupt id d v) fun a ha => hl a (mem_cons_of_mem _ ha)
    refine ⟨(ht.sweeps.trans hs).congr (fun _ _ => by simp) ?_, ((quarantineCorrupt_degrades id d v).trans hflag).congr ?_,
      ht.framed.trans hframed⟩
    · intro b e
      rw [mem_cons, RepairAction.quarantineCorrupt.injEq]
    · intro b
      simp only [mem_cons, RepairAction.quarantineCorrupt.injEq, exists_or, exists_and_left, exists_eq, and_true]

/-- Records flagged degraded: no file changes. -/
theorem applyAll_degradings : ∀ (l : List RepairAction) (v : Volume), (∀ a ∈ l, ∃ id, a = .markDegraded id) →
    Sweeps (fun _ _ => False) (fun _ _ => False) v (applyAll c l v) ∧
      Degrades (fun id => .markDegraded id ∈ l) v (applyAll c l v) ∧ Framed v (applyAll c l v) := by
  intro l
  induction l with
  | nil => intro v _; exact ⟨Sweeps.refl v, (Degrades.refl v).congr fun _ => by simp, .refl v⟩
  | cons a l ih =>
    intro v hl
    obtain ⟨id, rfl⟩ := hl a mem_cons_self
    have ht := markDegraded_tends id v
    obtain ⟨hs, hflag, hframed⟩ := ih (markDegraded id v) fun a ha => hl a (mem_cons_of_mem _ ha)
    refine ⟨(ht.sweeps.trans hs).congr (fun _ _ => by simp) (fun _ _ => by simp),
      ((markDegraded_degrades id v).trans hflag).congr fun b => ?_, ht.framed.trans hframed⟩
    rw [mem_cons, RepairAction.markDegraded.injEq]

/-- Unreferenced files are unlinked. -/
theorem applyAll_deletions : ∀ (l : List RepairAction) (v : Volume),
    (∀ a ∈ l, ∃ id d, a = .deleteOrphan id d ∨ a = .deleteOffDepth id d) →
    Sweeps (fun id d => .deleteOrphan id d ∈ l ∨ .deleteOffDepth id d ∈ l) (fun _ _ => False) v (applyAll c l v) ∧
      (applyAll c l v).store.blocks = v.store.blocks ∧ Framed v (applyAll c l v) := by
  intro l
  induction l with
  | nil => intro v _; exact ⟨(Sweeps.refl v).congr (fun _ _ => by simp) fun _ _ => Iff.rfl, rfl, .refl v⟩
  | cons a l ih =>
    intro v hl
    obtain ⟨id, d, ha⟩ := hl a mem_cons_self
    have happly : a.apply c v = unlink id d v := by rcases ha with rfl | rfl <;> rfl
    have ht := unlink_tends id d v
    obtain ⟨hs, hblocks, hframed⟩ := ih (unlink id d v) fun a ha => hl a (mem_cons_of_mem _ ha)
    rw [applyAll_cons, happly]
    refine ⟨(ht.sweeps.trans hs).congr ?_ (fun _ _ => by simp), hblocks, ht.framed.trans hframed⟩
    intro b e
    rw [mem_cons, mem_cons]
    rcases ha with rfl | rfl
    · simp only [RepairAction.deleteOrphan.injEq, reduceCtorEq, false_or, or_assoc]
    · simp only [RepairAction.deleteOffDepth.injEq, reduceCtorEq, false_or]
      tauto

/-- What is left at a foreign path once it is set aside: a link that dangles. -/
def leftover (entry : Option Entry) : Option Entry := entry.filter fun e => !e.exists

theorem leftover_some (e : Entry) : leftover (some e) = if e.exists then none else some e := by
  cases h : e.exists <;> simp [leftover, Option.filter, h]

theorem leftover_leftover (entry : Option Entry) : leftover (leftover entry) = leftover entry := by
  unfold leftover
  rw [Option.filter_filter]
  simp only [Bool.and_self]

theorem leftover_file {entry : Option Entry} {bytes : Bytes} : leftover entry ≠ some (.file bytes) := by
  unfold leftover
  rw [Ne, Option.filter_eq_some_iff]
  rintro ⟨-, h⟩
  cases h

/-- The paths of `P` are set aside. -/
structure Expels (P : DiskPath → Prop) (v v' : Volume) : Prop where
  gone : ∀ id d, P (.block id d) → file v' id d = none
  stays : ∀ id d, ¬ P (.block id d) → file v' id d = file v id d
  foreign_left : ∀ p, P (.other p) → v'.foreign.get p = leftover (v.foreign.get p)
  foreign_stays : ∀ p, ¬ P (.other p) → v'.foreign.get p = v.foreign.get p
  quarantine : ∀ bytes, bytes ∈ v'.quarantine ↔ bytes ∈ v.quarantine ∨
    (∃ id d, P (.block id d) ∧ file v id d = some bytes) ∨ ∃ p, P (.other p) ∧ v.foreign.get p = some (.file bytes)
  store : v'.store = { v.store with files := v'.store.files }
  misfiled : v'.misfiled = v.misfiled

theorem Expels.refl (v : Volume) : Expels (fun _ => False) v v :=
  ⟨fun _ _ h => h.elim, fun _ _ _ => rfl, fun _ h => h.elim, fun _ _ => rfl, fun _ => by simp, rfl, rfl⟩

theorem Expels.trans {P P' : DiskPath → Prop} {v v1 v2 : Volume} (h : Expels P v v1) (h' : Expels P' v1 v2) :
    Expels (fun path => P path ∨ P' path) v v2 where
  gone id d hP := by
    by_cases hP' : P' (.block id d)
    · exact h'.gone id d hP'
    · rw [h'.stays id d hP', h.gone id d (hP.resolve_right hP')]
  stays id d hP := by
    push Not at hP
    rw [h'.stays id d hP.2, h.stays id d hP.1]
  foreign_left p hP := by
    by_cases hP1 : P (.other p)
    · by_cases hP' : P' (.other p)
      · rw [h'.foreign_left p hP', h.foreign_left p hP1, leftover_leftover]
      · rw [h'.foreign_stays p hP', h.foreign_left p hP1]
    · rw [h'.foreign_left p (hP.resolve_left hP1), h.foreign_stays p hP1]
  foreign_stays p hP := by
    push Not at hP
    rw [h'.foreign_stays p hP.2, h.foreign_stays p hP.1]
  quarantine bytes := by
    rw [h'.quarantine, h.quarantine]
    constructor
    · rintro ((hq | ⟨id, d, hP, hf⟩ | ⟨p, hP, hf⟩) | ⟨id, d, hP', hf⟩ | ⟨p, hP', hf⟩)
      · exact .inl hq
      · exact .inr (.inl ⟨id, d, .inl hP, hf⟩)
      · exact .inr (.inr ⟨p, .inl hP, hf⟩)
      · by_cases hP : P (.block id d)
        · rw [h.gone id d hP] at hf; cases hf
        · exact .inr (.inl ⟨id, d, .inr hP', h.stays id d hP ▸ hf⟩)
      · by_cases hP : P (.other p)
        · exact absurd (h.foreign_left p hP ▸ hf) leftover_file
        · exact .inr (.inr ⟨p, .inr hP', h.foreign_stays p hP ▸ hf⟩)
    · rintro (hq | ⟨id, d, hP, hf⟩ | ⟨p, hP, hf⟩)
      · exact .inl (.inl hq)
      · by_cases hP1 : P (.block id d)
        · exact .inl (.inr (.inl ⟨id, d, hP1, hf⟩))
        · exact .inr (.inl ⟨id, d, hP.resolve_left hP1, (h.stays id d hP1).trans hf⟩)
      · by_cases hP1 : P (.other p)
        · exact .inl (.inr (.inr ⟨p, hP1, hf⟩))
        · exact .inr (.inr ⟨p, hP.resolve_left hP1, (h.foreign_stays p hP1).trans hf⟩)
  store := by rw [h'.store, h.store]
  misfiled := h'.misfiled.trans h.misfiled

theorem store_quarantineBlock (id : BlockId) (depth : ℕ) (v : Volume) : (quarantineBlock id depth v).store =
    { v.store with files := (quarantineBlock id depth v).store.files } := by
  unfold quarantineBlock
  split <;> rfl

theorem store_quarantineForeign (p : Bytes) (v : Volume) : (quarantineForeign (.other p) v).store = v.store := by
  unfold quarantineForeign
  dsimp only
  split
  · split <;> rfl
  · rfl

theorem misfiled_quarantineForeign (p : Bytes) (v : Volume) : (quarantineForeign (.other p) v).misfiled = v.misfiled := by
  unfold quarantineForeign
  dsimp only
  split
  · split <;> rfl
  · rfl

theorem quarantineForeign_get {entry : Entry} (hget : v.foreign.get p = some entry) : quarantineForeign (.other p) v =
      if entry.exists then { v with foreign := v.foreign.erase p, quarantine := v.quarantine ++ copies entry } else v := by
  simp only [quarantineForeign, hget]

theorem quarantineForeign_none (hget : v.foreign.get p = none) : quarantineForeign (.other p) v = v := by
  simp only [quarantineForeign, hget]

theorem foreign_quarantineForeign (p p' : Bytes) (v : Volume) : (quarantineForeign (.other p) v).foreign.get p' =
    if p' = p then leftover (v.foreign.get p') else v.foreign.get p' := by
  cases hget : v.foreign.get p with
  | none =>
    rw [quarantineForeign_none hget]
    split
    · rename_i hp
      rw [hp, hget]; rfl
    · rfl
  | some entry =>
    rw [quarantineForeign_get hget]
    cases hexists : entry.exists with
    | true =>
      simp only [if_true]
      split
      · rename_i hp
        rw [hp, OrdMap.get_erase_self, hget, leftover_some, if_pos hexists]
      · rename_i hp
        exact OrdMap.get_erase_of_ne _ hp
    | false =>
      simp only [Bool.false_eq_true, if_false]
      split
      · rename_i hp
        rw [hp, hget, leftover_some, hexists]
        rfl
      · rfl

theorem mem_quarantineForeign {p bytes : Bytes} : bytes ∈ (quarantineForeign (.other p) v).quarantine ↔
    bytes ∈ v.quarantine ∨ v.foreign.get p = some (.file bytes) := by
  cases hget : v.foreign.get p with
  | none =>
    rw [quarantineForeign_none hget]
    simp
  | some entry =>
    rw [quarantineForeign_get hget]
    cases entry with
    | file bytes' => simp [Entry.exists, copies, eq_comm]
    | directory | special => simp [Entry.exists, copies]
    | link leads => cases leads <;> simp [Entry.exists, copies]

/-- `quarantine_foreign`. -/
theorem quarantineForeign_expels (path : DiskPath) (v : Volume) :
    Expels (fun p => p = path) v (quarantineForeign path v) := by
  cases path with
  | block id d =>
    have ht := quarantineBlock_tends id d v
    have hpath : ∀ b e, DiskPath.block b e = .block id d ↔ b = id ∧ e = d := fun b e => by rw [DiskPath.block.injEq]
    refine ⟨?_, ?_, fun _ => nofun, ?_, ?_, store_quarantineBlock id d v, ht.framed.misfiled⟩
    · exact fun b e h => ht.sweeps.gone b e (.inr ((hpath b e).1 h))
    · exact fun b e h => ht.sweeps.stays b e And.right ((hpath b e).not.1 h)
    · exact fun p _ => congrArg (OrdMap.get · p) ht.framed.foreign
    · intro bytes
      constructor
      · intro hq
        rcases ht.sweeps.moved bytes hq with hq | ⟨b, e, hbe, hf⟩
        · exact .inl hq
        · exact .inr (.inl ⟨b, e, (hpath b e).2 hbe, hf⟩)
      · rintro (hq | ⟨b, e, hbe, hf⟩ | ⟨p, hp, -⟩)
        · exact ht.sweeps.grows bytes hq
        · exact ht.sweeps.aside b e bytes ((hpath b e).1 hbe) And.right hf
        · cases hp
  | other p =>
    have hother : ∀ p', DiskPath.other p' = .other p ↔ p' = p := fun p' => by rw [DiskPath.other.injEq]
    refine ⟨fun _ _ => nofun, fun id d _ => ?_, fun p' h => ?_, fun p' h => ?_, fun bytes => ?_, ?_, ?_⟩
    · rw [file, file, store_quarantineForeign]
    · obtain rfl := (hother p').1 h
      rw [foreign_quarantineForeign, if_pos rfl]
    · rw [foreign_quarantineForeign, if_neg ((hother p').not.1 h)]
    · rw [mem_quarantineForeign]
      refine or_congr_right ?_
      constructor
      · exact fun hget => .inr ⟨p, rfl, hget⟩
      · rintro (⟨id, d, h, -⟩ | ⟨p', h, hget⟩)
        · cases h
        · exact (hother p').1 h ▸ hget
    · rw [store_quarantineForeign]
    · exact misfiled_quarantineForeign p v

theorem applyAll_foreign : ∀ (paths : List DiskPath) (v : Volume),
    Expels (fun path => path ∈ paths) v (applyAll c (paths.map .quarantineForeign) v) := by
  intro paths
  induction paths with
  | nil =>
    intro v
    have hnil : (fun path : DiskPath => path ∈ ([] : List DiskPath)) = fun _ => False := funext fun _ => by simp
    rw [hnil]
    exact Expels.refl v
  | cons path paths ih =>
    intro v
    have hcons : (fun p => p ∈ path :: paths) = fun p => p = path ∨ p ∈ paths := funext fun _ => by simp
    rw [hcons]
    exact (quarantineForeign_expels path v).trans (ih (quarantineForeign path v))

/-- The record has no file of its own and there are copies elsewhere. -/
def Adoptable (width : ℕ) (v : Volume) (id : BlockId) (block : Block) : Prop :=
  recordOf v.store id = some block ∧ block.degraded = false ∧ file v id (diskDepth id block.depth) = none ∧
    elsewhere (walkDisk width v) id block.depth ≠ []

theorem isFile_eq_false {depth : ℕ} : isFile v.store id depth = false ↔ file v id (diskDepth id depth) = none := by
  unfold isFile file
  rw [Option.isSome_eq_false_iff, Option.isNone_iff_eq_none]

theorem mem_planAdoptions : a ∈ planAdoptions (walkDisk width v) v.store ↔ ∃ id block, Adoptable width v id block ∧
        a = .adoptOrphan id block.depth (elsewhere (walkDisk width v) id block.depth) := by
  unfold planAdoptions
  rw [mem_filterMap]
  constructor
  · rintro ⟨⟨id, block⟩, hr, ha⟩
    have hrecord := mem_walkRecords.1 hr
    dsimp only at ha
    split_ifs at ha with hflag hempty
    cases ha
    simp only [Bool.or_eq_true, not_or, Bool.not_eq_true] at hflag
    refine ⟨id, block, ⟨hrecord, hflag.1, isFile_eq_false.1 hflag.2, ?_⟩, rfl⟩
    exact fun he => hempty (isEmpty_iff.2 he)
  · rintro ⟨id, block, ⟨hrecord, hflag, hown, hne⟩, rfl⟩
    refine ⟨(id, block), mem_walkRecords.2 hrecord, ?_⟩
    dsimp only
    rw [hflag, isFile_eq_false.2 hown, Bool.or_self, if_neg Bool.false_ne_true, if_neg]
    exact fun he => hne (isEmpty_iff.1 he)

theorem planAdoptions_distinct (disk : DiskWalk) (s : Store) :
    (planAdoptions disk s).Pairwise fun a b => a.block ≠ b.block := by
  unfold planAdoptions
  refine pairwise_filterMap.2 ((walkRecords_distinct s).imp ?_)
  intro r r' hne a ha a' ha' hblock
  split_ifs at ha with _ _
  split_ifs at ha' with _ _
  cases ha
  cases ha'
  exact hne (Option.some.inj hblock)

theorem mem_planRecount {expected : BlockId → ℕ} : a ∈ planRecount expected s ↔
      ∃ id block, recordOf s id = some block ∧ block.rc ≠ expected id ∧ a = .setRc id block.rc (expected id) := by
  unfold planRecount
  rw [mem_filterMap]
  constructor
  · rintro ⟨⟨id, block⟩, hr, ha⟩
    dsimp only at ha
    split_ifs at ha with hrc
    cases ha
    exact ⟨id, block, mem_walkRecords.1 hr, hrc, rfl⟩
  · rintro ⟨id, block, hrecord, hrc, rfl⟩
    exact ⟨(id, block), mem_walkRecords.2 hrecord, if_neg hrc⟩

theorem planRecount_distinct (expected : BlockId → ℕ) (s : Store) :
    (planRecount expected s).Pairwise fun a b => a.block ≠ b.block := by
  unfold planRecount
  refine pairwise_filterMap.2 ((walkRecords_distinct s).imp ?_)
  intro r r' hne a ha a' ha' hblock
  split_ifs at ha
  split_ifs at ha'
  cases ha
  cases ha'
  exact hne (Option.some.inj hblock)

theorem planDeletions_cases (ha : a ∈ planDeletions (walkDisk width v) v.store) :
    ∃ id d, a = .deleteOrphan id d ∨ a = .deleteOffDepth id d := by
  obtain ⟨f, -, hf⟩ := mem_filterMap.1 ha
  split at hf
  · cases hf
    exact ⟨_, _, .inl rfl⟩
  · split_ifs at hf
    cases hf
    exact ⟨_, _, .inr rfl⟩

theorem mem_planDeletions : (.deleteOrphan id d ∈ planDeletions (walkDisk width v) v.store ∨
      .deleteOffDepth id d ∈ planDeletions (walkDisk width v) v.store) ↔
    accepts width id d = true ∧ (file v id d).isSome ∧ (recordOf v.store id = none ∨
      ∃ block, recordOf v.store id = some block ∧ block.depth ≠ d ∧ accepts width id block.depth = true ∧
        (file v id block.depth).isSome) := by
  unfold planDeletions
  rw [mem_filterMap, mem_filterMap]
  constructor
  · rintro (⟨f, hf, ha⟩ | ⟨f, hf, ha⟩)
    · obtain ⟨haccepts, hget⟩ := mem_walkDisk.1 hf
      split at ha
      · rename_i hnone
        cases ha
        exact ⟨haccepts, by rw [hget]; rfl, .inl hnone⟩
      · split_ifs at ha
        cases ha
    · obtain ⟨haccepts, hget⟩ := mem_walkDisk.1 hf
      split at ha
      · cases ha
      rename_i block hblock
      split_ifs at ha with hcond
      cases ha
      simp only [Bool.and_eq_true, decide_eq_true_eq] at hcond
      obtain ⟨haccepts', hsome⟩ := present_iff.1 hcond.2
      exact ⟨haccepts, by rw [hget]; rfl, .inr ⟨block, hblock, hcond.1, haccepts', hsome⟩⟩
  · rintro ⟨haccepts, hsome, hrecord⟩
    obtain ⟨bytes, hget⟩ := Option.isSome_iff_exists.1 hsome
    have hf : (⟨id, d, bytes⟩ : BlockFile) ∈ (walkDisk width v).files := mem_walkDisk.2 ⟨haccepts, hget⟩
    rcases hrecord with hnone | ⟨block, hblock, hne, haccepts', hsome'⟩
    · exact .inl ⟨_, hf, by simp only [hnone]⟩
    · refine .inr ⟨_, hf, ?_⟩
      have hpresent : present (walkDisk width v).files id block.depth = true := present_iff.2 ⟨haccepts', hsome'⟩
      simp only [hblock, hpresent, Bool.and_true, decide_eq_true_eq, ne_eq, hne, not_false_eq_true, if_true]

theorem mem_foreign : .block id d ∈ (walkDisk width v).foreign ↔ accepts width id d = false ∧ (file v id d).isSome := by
  unfold walkDisk file
  simp only [mem_append, mem_filterMap, mem_map, reduceCtorEq, and_false, exists_false, or_false]
  constructor
  · rintro ⟨⟨k, bytes⟩, he, hf⟩
    split_ifs at hf with haccepts
    cases hf
    rw [Bool.not_eq_true] at haccepts
    exact ⟨haccepts, by rw [show v.store.files.get (toLex ((ofLex k).1, (ofLex k).2)) = some bytes from
      OrdMap.mem_entries.1 he]; rfl⟩
  · rintro ⟨haccepts, hsome⟩
    obtain ⟨bytes, hget⟩ := Option.isSome_iff_exists.1 hsome
    exact ⟨(toLex (id, d), bytes), OrdMap.mem_entries.2 hget, if_neg (by simp [haccepts])⟩

theorem mem_foreign_other : .other p ∈ (walkDisk width v).foreign ↔ (v.foreign.get p).isSome := by
  unfold walkDisk
  simp only [mem_append, mem_filterMap, mem_map, DiskPath.other.injEq, exists_eq_right, OrdMap.keys]
  constructor
  · rintro (⟨f, -, hf⟩ | ⟨⟨p', bytes⟩, he, rfl⟩)
    · split_ifs at hf
      cases hf
    · rw [OrdMap.mem_entries.1 he]; rfl
  · intro hsome
    obtain ⟨bytes, hget⟩ := Option.isSome_iff_exists.1 hsome
    exact .inr ⟨(p, bytes), OrdMap.mem_entries.2 hget, rfl⟩

end Phases

end QssStorage.Scrub
