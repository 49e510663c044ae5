import QssStorage.Proof.Consistency

/-!
# What a repair leaves unfinished

A repair is checked by running the passes again: what they still find of the classes the engine
claims to repair makes the summary dirty. Such a finding is also all that a second repair
would act on, so a repair has settled a volume if and only if nothing of the kind is left.

* `repair_settles_iff`: which volumes one repair settles.
-/

namespace QssStorage.Scrub

open Option (isSome_iff_ne_none isSome_of_eq_some map_some not_isSome_iff_eq_none isSome_map)

/-! ## Reports without repairable findings -/

/-- Nothing is left that the engine claims to repair. -/
structure NoneLeft (c : Config) (width : ℕ) (scrub : Bool) (v : Volume) : Prop where
  counts : ∀ refs, walkHolders v.store = some refs → ∀ id block, recordOf v.store id = some block →
    id ∈ refs ∧ block.rc = refs.count id
  files : ∀ id d, ¬ Deleted width v id d
  foreign : (walkDisk width v).foreign = []
  whole : ∀ id block, recordOf v.store id = some block → block.degraded = false →
    (file v id (diskDepth id block.depth)).isSome
  sound : ∀ id d, ¬ SetAside c width scrub id (file v id) d
  trees : ∀ t, (v.store.trees.get t).isSome → isReserved t = false → (v.store.buckets.get t).isSome
  parts : (multipartReport v.store).isSome → ∀ k part, v.store.parts.get k = some (.record part) → Owned v.store part

section Report

variable {c : Config} {width : ℕ} {scrub : Bool} {v : Volume} {report : Report}

theorem noneLeft_of_report (hrun : run c width scrub v = some report)
    (h : ∀ f ∈ report.findings, isRepairable f.kind = false) : NoneLeft c width scrub v := by
  simp only [mem_findings hrun, or_imp, forall_and] at h
  obtain ⟨-, hrecount, -, hsweep, hdangling, hscrubbed, huploads, -, hbuckets⟩ := h
  refine ⟨fun refs hrefs id block hrecord => ?_, fun id d hdel => ?_, ?_, fun id block hrecord hdeg => ?_,
    fun id d haside => ?_, fun t hsome hres => ?_, fun hmulti k part hget => ?_⟩
  · have hover : ¬ (id ∉ refs ∨ refs.count id < block.rc) := fun hover =>
      nomatch hrecount _ ⟨refs, hrefs, mem_recount.2 (.inr (.inl ⟨id, block, hrecord, hover, rfl⟩))⟩
    push Not at hover
    have hunder : ¬ block.rc < refs.count id := fun hunder =>
      nomatch hrecount _ ⟨refs, hrefs, mem_recount.2 (.inr (.inr ⟨id, hover.1, block, hrecord, hunder, rfl⟩))⟩
    exact ⟨hover.1, by omega⟩
  · obtain ⟨haccepts, hsome, hnone | ⟨block, hrecord, hne, hown, hfile⟩⟩ := hdel
    · exact nomatch hsweep _ (mem_diskSweep.2 (.inl ⟨id, d, haccepts, hsome, hnone, rfl⟩))
    · exact nomatch hsweep _ (mem_diskSweep.2
        (.inr (.inl ⟨id, d, block, haccepts, hsome, hrecord, hne, hown, hfile, rfl⟩)))
  · refine List.eq_nil_iff_forall_not_mem.2 fun path hpath => ?_
    exact nomatch hsweep _ (mem_diskSweep.2 (.inr (.inr (.inr ⟨path, hpath, rfl⟩))))
  · rw [isSome_iff_ne_none]
    intro hown
    have hkind := hdangling _ (mem_danglingSweep.2 ⟨id, block, hrecord, .inr ⟨hdeg, hown, rfl⟩⟩)
    split at hkind <;> cases hkind
  · obtain ⟨hscrub, haccepts, hbad⟩ := haside
    exact nomatch hscrubbed _ ⟨hscrub, mem_corruptionScrub.2 ⟨id, d, haccepts, hbad, rfl⟩⟩
  · rw [isSome_iff_ne_none]
    intro hrow
    obtain ⟨findings, hrep⟩ := Option.isSome_iff_exists.1 (bucketIntegrity_isSome hrun)
    exact nomatch hbuckets _ ⟨findings, hrep, (mem_bucketIntegrity hrep).2 ⟨⟨t, hsome, hres, hrow⟩, rfl⟩⟩
  · by_contra hnot
    obtain ⟨findings, hrep⟩ := Option.isSome_iff_exists.1 hmulti
    exact nomatch huploads _ ⟨findings, hrep, (mem_multipartReport hrep).2 (.inr ⟨⟨k, part, hget, hnot⟩, rfl⟩)⟩

theorem NoneLeft.unrepairable (hrun : run c width scrub v = some report) (h : NoneLeft c width scrub v) :
    ∀ f ∈ report.findings, isRepairable f.kind = false := by
  intro f hf
  rcases (mem_findings hrun).1 hf with hf | ⟨refs, hrefs, hf⟩ | ⟨-, rfl⟩ | hf | hf | ⟨hscrub, hf⟩ | ⟨findings, hrep, hf⟩ |
    ⟨-, rfl⟩ | ⟨findings, hrep, hf⟩
  · rcases mem_recordFindings.1 hf with ⟨-, rfl⟩ | ⟨id, -, rfl⟩ <;> rfl
  · rcases mem_recount.1 hf with ⟨id, -, -, rfl⟩ | ⟨id, block, hrecord, hover, -⟩ | ⟨id, -, block, hrecord, hunder, -⟩
    · rfl
    · obtain ⟨hid, hrc⟩ := h.counts refs hrefs id block hrecord
      have hlt := hover.resolve_left (not_not.2 hid)
      omega
    · have hrc := (h.counts refs hrefs id block hrecord).2
      omega
  · rfl
  · rcases mem_diskSweep.1 hf with ⟨id, d, haccepts, hsome, hnone, -⟩ |
      ⟨id, d, block, haccepts, hsome, hrecord, hne, hown, hfile, -⟩ | ⟨id, block, bytes, -, -, -, -, rfl⟩ | ⟨path, hpath, -⟩
    · exact (h.files id d ⟨haccepts, hsome, .inl hnone⟩).elim
    · exact (h.files id d ⟨haccepts, hsome, .inr ⟨block, hrecord, hne, hown, hfile⟩⟩).elim
    · rfl
    · rw [h.foreign] at hpath
      cases hpath
  · obtain ⟨id, block, hrecord, ⟨-, rfl⟩ | ⟨hdeg, hown, -⟩⟩ := mem_danglingSweep.1 hf
    · rfl
    · have hsome := h.whole id block hrecord hdeg
      rw [hown] at hsome
      cases hsome
  · obtain ⟨id, d, haccepts, hbad, -⟩ := mem_corruptionScrub.1 hf
    exact (h.sound id d ⟨hscrub, haccepts, hbad⟩).elim
  · rcases (mem_multipartReport hrep).1 hf with ⟨-, rfl⟩ | ⟨⟨k, part, hget, hnot⟩, -⟩
    · rfl
    · exact (hnot (h.parts (isSome_of_eq_some hrep) k part hget)).elim
  · rfl
  · obtain ⟨⟨t, hsome, hres, hrow⟩, -⟩ := (mem_bucketIntegrity hrep).1 hf
    have hrow' := h.trees t hsome hres
    rw [hrow] at hrow'
    cases hrow'

/-- **What a report without repairable findings says.** -/
theorem noneLeft_iff (hrun : run c width scrub v = some report) :
    (∀ f ∈ report.findings, isRepairable f.kind = false) ↔ NoneLeft c width scrub v :=
  ⟨noneLeft_of_report hrun, fun h => h.unrepairable hrun⟩

/-- The passes themselves flag nothing. -/
theorem run_not_dirty (hrun : run c width scrub v = some report) :
    ∀ f ∈ report.findings, f.kind ≠ .postRepairRecountDirty := by
  intro f hf
  rcases (mem_findings hrun).1 hf with hf | ⟨refs, -, hf⟩ | ⟨-, rfl⟩ | hf | hf | ⟨-, hf⟩ | ⟨findings, hrep, hf⟩ |
    ⟨-, rfl⟩ | ⟨findings, hrep, hf⟩
  · rcases mem_recordFindings.1 hf with ⟨-, rfl⟩ | ⟨id, -, rfl⟩ <;> exact nofun
  · rcases mem_recount.1 hf with ⟨_, -, -, rfl⟩ | ⟨_, _, -, -, rfl⟩ | ⟨_, -, _, -, -, rfl⟩ <;> exact nofun
  · exact nofun
  · rcases mem_diskSweep.1 hf with ⟨_, _, -, -, -, rfl⟩ | ⟨_, _, _, -, -, -, -, -, -, rfl⟩ | ⟨_, _, _, -, -, -, -, rfl⟩ |
      ⟨_, -, rfl⟩ <;> exact nofun
  · obtain ⟨_, _, -, ⟨-, rfl⟩ | ⟨-, -, rfl⟩⟩ := mem_danglingSweep.1 hf
    · exact nofun
    · split <;> exact nofun
  · obtain ⟨_, _, -, -, rfl⟩ := mem_corruptionScrub.1 hf
    exact nofun
  · rcases (mem_multipartReport hrep).1 hf with ⟨-, rfl⟩ | ⟨-, rfl⟩ <;> exact nofun
  · exact nofun
  · obtain ⟨-, rfl⟩ := (mem_bucketIntegrity hrep).1 hf
    exact nofun

/-- A report with nothing left is not flagged. -/
theorem flagUnfinished_findings {post : Report} (h : ∀ f ∈ post.findings, isRepairable f.kind = false) :
    (flagUnfinished post).findings = post.findings := by
  have hnil : (post.findings.map Finding.kind).filter isRepairable = [] := by
    rw [List.filter_eq_nil_iff]
    intro kind hkind
    obtain ⟨f, hf, rfl⟩ := List.mem_map.1 hkind
    rw [h f hf]
    exact Bool.false_ne_true
  unfold flagUnfinished
  simp only [hnil, List.dedup_nil, List.map_nil, List.append_nil]

end Report

/-! ## Repairs of such volumes -/

section Idle

variable {c : Config} {width : ℕ} {scrub : Bool} {v : Volume} {report : Report}

theorem NoneLeft.planTeardowns_nil (hrun : run c width scrub v = some report) (h : NoneLeft c width scrub v) :
    planTeardowns report v = some [] := by
  obtain ⟨-, -, hran, hstranded⟩ := run_ran hrun
  obtain ⟨trees, htrees⟩ := Option.isSome_iff_exists.1 hstranded
  have hnil : trees = [] := List.eq_nil_iff_forall_not_mem.2 fun t ht => by
    obtain ⟨hsome, hres, hrow⟩ := (mem_strandedTrees htrees).1 ht
    have hrow' := h.trees t hsome hres
    rw [hrow] at hrow'
    cases hrow'
  unfold planTeardowns
  rw [if_pos hran, htrees, hnil]
  simp only [map_some, List.map_nil, ite_self]

theorem planOrphanParts_nil (hrun : run c width scrub v = some report) (hreaped : ∀ k, ¬ Reaped v.store k) :
    planOrphanParts report v = some [] := by
  obtain ⟨hrecount, hmulti, -, -⟩ := run_ran hrun
  unfold planOrphanParts
  split
  · rename_i hran
    rw [hmulti] at hran
    obtain ⟨huploads, hparts⟩ := multipartReport_isSome.1 hran
    have hsome : (orphanParts v.store v.store.parts.entries).isSome := by
      refine orphanParts_isSome huploads fun e he hgarbage => ?_
      refine hparts e.1 ?_
      rw [← hgarbage]
      exact OrdMap.mem_entries.1 he
    obtain ⟨orphans, horphans⟩ := Option.isSome_iff_exists.1 hsome
    rw [horphans, map_some]
    split
    · rename_i hclosed
      rw [hrecount] at hclosed
      have hnil : orphans = [] := List.eq_nil_iff_forall_not_mem.2 fun o ho => by
        obtain ⟨he, horphaned⟩ := (mem_orphanParts horphans o.1 o.2).1 ho
        exact hreaped o.1 ⟨hclosed, hran, o.2, OrdMap.mem_entries.1 he, horphaned⟩
      rw [hnil]
      rfl
    · rfl
  · rfl

theorem NoneLeft.planRepairs_nil (hrun : run c width scrub v = some report) (h : NoneLeft c width scrub v) :
    planRepairs width report v = some [] := by
  have hcorrupt : planCorrupt report (walkDisk width v) = [] := List.eq_nil_iff_forall_not_mem.2 fun a ha => by
    obtain ⟨id, d, -, haside⟩ := (mem_planCorrupt hrun fun _ _ _ hf => hf).1 ha
    exact h.sound id d haside
  have hadopt : planAdoptions (walkDisk width v) v.store = [] := List.eq_nil_iff_forall_not_mem.2 fun a ha => by
    obtain ⟨id, block, ⟨hrecord, hdeg, hown, -⟩, -⟩ := mem_planAdoptions.1 ha
    have hsome := h.whole id block hrecord hdeg
    rw [hown] at hsome
    cases hsome
  have hdegrade : planDegradings (walkDisk width v) v.store = [] := List.eq_nil_iff_forall_not_mem.2 fun a ha => by
    obtain ⟨id, -, block, hrecord, hdeg, hown, -⟩ := mem_planDegradings.1 ha
    have hsome := h.whole id block hrecord hdeg
    rw [hown] at hsome
    cases hsome
  have hdelete : planDeletions (walkDisk width v) v.store = [] := by
    refine List.eq_nil_iff_forall_not_mem.2 fun a ha => ?_
    obtain ⟨id, d, rfl | rfl⟩ := planDeletions_cases ha
    · exact h.files id d (mem_planDeletions.1 (.inl ha))
    · exact h.files id d (mem_planDeletions.1 (.inr ha))
  unfold planRepairs
  simp only [hcorrupt, hadopt, hdegrade, hdelete, h.foreign, List.map_nil, List.append_nil, List.nil_append]
  split
  · rename_i hran
    rw [(run_ran hrun).1] at hran
    obtain ⟨refs, hrefs⟩ := Option.isSome_iff_exists.1 hran
    have hcount : planRecount (fun id => refs.count id) v.store = [] := List.eq_nil_iff_forall_not_mem.2 fun a ha => by
      obtain ⟨id, block, hrecord, hne, -⟩ := mem_planRecount.1 ha
      exact hne (h.counts refs hrefs id block hrecord).2
    rw [expectedCounts, hrefs, map_some, map_some, hcount]
  · rfl

/-- **A repair with nothing left to repair changes nothing.** -/
theorem fsckRepair_eq_self (hrun : run c width scrub v = some report) (h : NoneLeft c width scrub v)
    (hreaped : ∀ k, ¬ Reaped v.store k) : fsckRepair c width scrub v = some v := by
  unfold fsckRepair repair
  simp only [hrun, h.planTeardowns_nil hrun, applyAll_nil, planOrphanParts_nil hrun hreaped, h.planRepairs_nil hrun,
    map_some]

/-- **A repair of a volume that is reported clean changes nothing.** -/
theorem clean_untouched (hrun : run c width false v = some report) (hclean : report.findings = []) :
    fsckRepair c width false v = some v := by
  refine fsckRepair_eq_self hrun (noneLeft_of_report hrun fun f hf => ?_) fun k hk => ?_
  · rw [hclean] at hf
    cases hf
  · obtain ⟨-, -, part, hpart, -⟩ := hk
    rw [((findings_nil_iff hrun).1 hclean).1.parts_none k] at hpart
    cases hpart

theorem clean_untouched_abc :
    ∃ v, v.store.blocks.get abcId = some (.record ⟨3, 1, 1, false, 0⟩) ∧ fsckRepair abcConfig 32 false v = some v := by
  have hrun : (run abcConfig 32 false (abcVolume (OrdMap.insert ∅ abcId (.record ⟨3, 1, 1, false, 0⟩)))).map
      (·.findings) = some [] := by decide +kernel
  obtain ⟨report, hrun, hclean⟩ := Option.map_eq_some_iff.1 hrun
  exact ⟨_, rfl, clean_untouched hrun hclean⟩

end Idle

/-! ## Files after the second round -/

/-- A recount frees the record. -/
theorem recountedBy_eq_none {expected : Option (BlockId → ℕ)} {id : BlockId} {block : Block} :
    recountedBy expected id block = none ↔ Unheld expected id ∧ block.rc ≠ 0 := by
  unfold Unheld
  cases expected with
  | none => simp [recountedBy]
  | some holders => simp [recountedBy, recounted_eq_none]

theorem recountedBy_same {expected : Option (BlockId → ℕ)} {id : BlockId} {block block' : Block}
    (h : recountedBy expected id block = some block') : block' = { block with rc := block'.rc } := by
  cases expected with
  | none =>
    cases h
    rfl
  | some holders =>
    unfold recountedBy recounted at h
    dsimp only at h
    split at h
    · cases h
      rfl
    · split at h
      · cases h
      · cases h
        rfl

theorem recountedBy_depth {expected : Option (BlockId → ℕ)} {id : BlockId} {block block' : Block}
    (h : recountedBy expected id block = some block') : block'.depth = block.depth := by rw [recountedBy_same h]

theorem recountedBy_degraded {expected : Option (BlockId → ℕ)} {id : BlockId} {block block' : Block}
    (h : recountedBy expected id block = some block') : block'.degraded = block.degraded := by rw [recountedBy_same h]

section Phases

variable {c : Config} {width : ℕ} {scrub : Bool} {expected : Option (BlockId → ℕ)} {v1 vA vB vC vD vE v' : Volume}
  (h : Phases c width scrub expected v1 vA vB vC vD vE v') {id : BlockId} {block : Block}
  (hrecord : recordOf v1.store id = some block) {d : ℕ}
include h hrecord

/-- The recount unlinks the file of a record it frees, at the depth the adoptions left it with. -/
theorem Phases.unlinked_iff : Unlinked expected vB id d ↔ Unheld expected id ∧ block.rc ≠ 0 ∧
    ((∃ d', Lands c width v1 id block d' ∧ d = d') ∨
      (∀ d', ¬ Lands c width v1 id block d') ∧ d = diskDepth id block.depth) := by
  obtain ⟨depth, flag, hB, hlands, hstays, -⟩ := h.recordOf_adopt hrecord
  unfold Unlinked
  rw [hB]
  simp only [Option.some.injEq, exists_eq_left']
  refine and_congr_right fun _ => and_congr_right fun _ => ?_
  by_cases hland : ∃ d', Lands c width v1 id block d'
  · obtain ⟨d', hd'⟩ := hland
    have hdepth : diskDepth id d' = d' := diskDepth_of_accepts hd'.2.2.1
    rw [hlands d' hd', hdepth]
    constructor
    · exact fun heq => .inl ⟨d', hd', heq⟩
    · rintro (⟨d'', hd'', rfl⟩ | ⟨hno, -⟩)
      · exact hd''.unique hd'
      · exact (hno d' hd').elim
  · push Not at hland
    rw [hstays hland]
    exact ⟨fun heq => .inr ⟨hland, heq⟩, fun heq => heq.elim (fun ⟨d', hd', _⟩ => (hland d' hd').elim) And.right⟩

/-- Of the copies an adoption is planned from, the one it takes is left. -/
theorem Phases.isSome_file_adoptable (hadopt : Adoptable width v1 id block) :
    (file v' id d).isSome ↔ Lands c width v1 id block d ∧ ¬ (Unheld expected id ∧ block.rc ≠ 0) := by
  have ⟨_, hdeg, hown, _⟩ := hadopt
  have hunlinked := h.unlinked_iff hrecord (d := d)
  constructor
  · intro hsome
    obtain ⟨bytes, hf⟩ := Option.isSome_iff_exists.1 hsome
    obtain ⟨hf1, haccepts, haside, hover, hpassed, hlinked, -⟩ := h.file_eq_some.1 hf
    have hcand : d ∈ candidates width v1 id block := (mem_candidates hown).2 ⟨haccepts, isSome_of_eq_some hf1⟩
    have hfA : file vA id d = some bytes := (h.corrupt.stays id d not_false haside).trans hf1
    have hfirst : ∀ d' ∈ candidates width v1 id block, d' < d → ¬ Good c id (file vA id) d' := fun d' hd' hlt hgood =>
      hover ⟨block, hadopt, hcand, d', hd', hlt, hgood⟩
    have hgood : Good c id (file vA id) d := by
      by_contra hbad
      exact hpassed ⟨block, hadopt, hcand, ⟨bytes, hfA, fun hhash => hbad ⟨bytes, hfA, hhash⟩⟩, hfirst⟩
    have hland : Lands c width v1 id block d := (lands_iff_adopted h.corrupt hadopt).2 ⟨hcand, hgood, hfirst⟩
    exact ⟨hland, fun hfree => hlinked (hunlinked.2 ⟨hfree.1, hfree.2, .inl ⟨d, hland, rfl⟩⟩)⟩
  · rintro ⟨hland, hfree⟩
    obtain ⟨hcand, hgood, hfirst⟩ := (lands_iff_adopted h.corrupt hadopt).1 hland
    have ⟨_, _, haccepts, hgood1, _⟩ := hland
    have ⟨bytes, hf1, _⟩ := hgood1
    refine isSome_of_eq_some (h.file_eq_some.2 ⟨hf1, haccepts, ?_, ?_, ?_, ?_, ?_⟩)
    · exact fun haside => hgood1.not_bad haside.2.2
    · rintro ⟨block', hadopt', -, d', hd', hlt, hgood'⟩
      rw [← hadopt.unique hadopt'] at hd'
      exact hfirst d' hd' hlt hgood'
    · rintro ⟨_, -, -, hbad, -⟩
      exact hgood.not_bad hbad
    · exact fun hlinked => hfree ⟨(hunlinked.1 hlinked).1, (hunlinked.1 hlinked).2.1⟩
    · rintro ⟨-, -, hnone | ⟨block', hrecord', -, hacc, hsome⟩⟩
      · cases hrecord.symm.trans hnone
      cases hrecord.symm.trans hrecord'
      rw [diskDepth_of_accepts hacc] at hown
      rw [hown] at hsome
      cases hsome

/-- Where none is planned, copies stay but for duplicates and the file of a freed record. -/
theorem Phases.isSome_file_other (hadopt : ¬ Adoptable width v1 id block) :
    (file v' id d).isSome ↔ (file v1 id d).isSome ∧ accepts width id d = true ∧ ¬ SetAside c width scrub id (file v1 id) d ∧
      ¬ (Unheld expected id ∧ block.rc ≠ 0 ∧ d = diskDepth id block.depth) ∧
      ¬ (block.depth ≠ d ∧ accepts width id block.depth = true ∧ (file v1 id block.depth).isSome) := by
  have hnoLand : ∀ d', ¬ Lands c width v1 id block d' := fun d' hland => hadopt (hland.adoptable hrecord)
  have hnoAdopt : ∀ block', ¬ Adoptable width v1 id block' := by
    intro block' hadopt'
    obtain rfl : block = block' := Option.some.inj (hrecord.symm.trans hadopt'.1)
    exact hadopt hadopt'
  have hunlinked : Unlinked expected vB id d ↔ Unheld expected id ∧ block.rc ≠ 0 ∧ d = diskDepth id block.depth := by
    rw [h.unlinked_iff hrecord]
    refine and_congr_right fun _ => and_congr_right fun _ => ?_
    exact ⟨fun heq => heq.elim (fun ⟨d', hd', _⟩ => (hnoLand d' hd').elim) And.right, fun heq => .inr ⟨hnoLand, heq⟩⟩
  constructor
  · intro hsome
    obtain ⟨bytes, hf⟩ := Option.isSome_iff_exists.1 hsome
    obtain ⟨hf1, haccepts, haside, -, -, hlinked, hdeleted⟩ := h.file_eq_some.1 hf
    have hsome1 := isSome_of_eq_some hf1
    refine ⟨hsome1, haccepts, haside, fun hfree => hlinked (hunlinked.2 hfree), fun hoff => ?_⟩
    exact hdeleted ⟨haccepts, hsome1, .inr ⟨block, hrecord, hoff⟩⟩
  rintro ⟨hsome1, haccepts, haside, hfree, hoff⟩
  obtain ⟨bytes, hf1⟩ := Option.isSome_iff_exists.1 hsome1
  refine isSome_of_eq_some (h.file_eq_some.2 ⟨hf1, haccepts, haside, ?_, ?_, fun hlinked => hfree (hunlinked.1 hlinked), ?_⟩)
  · exact fun ⟨block', hadopt', _⟩ => hnoAdopt block' hadopt'
  · exact fun ⟨block', hadopt', _⟩ => hnoAdopt block' hadopt'
  rintro ⟨-, -, hnone | ⟨block', hrecord', hoff'⟩⟩
  · cases hrecord.symm.trans hnone
  · cases hrecord.symm.trans hrecord'
    exact hoff hoff'

end Phases

/-! ## What one repair settles -/

/-- The recount frees the record that the first round leaves of `id`. -/
def Freed (v : Volume) (id : BlockId) (block : Block) : Prop :=
  (walkHolders v.store).isSome ∧ ¬ Survives v.store id ∧ block.rc ≠ 0

/-- A copy of a freed block that no action of the repair is about. -/
def Stray (c : Config) (width : ℕ) (scrub : Bool) (v : Volume) (id : BlockId) (block : Block) (d : ℕ) : Prop :=
  accepts width id d = true ∧ (file v id d).isSome ∧ ¬ SetAside c width scrub id (file v id) d ∧
    d ≠ diskDepth id block.depth ∧ ¬ (accepts width id block.depth = true ∧ (file v id block.depth).isSome) ∧
    (block.degraded = true ∨ (file v id (diskDepth id block.depth)).isSome)

/-- What has to hold of a volume for one repair to settle it. -/
structure Repairable (c : Config) (width : ℕ) (scrub : Bool) (v : Volume) : Prop where
  /-- The teardown of every half-deleted bucket is resumed and comes to its end. -/
  trees : ∀ t, (v.store.trees.get t).isSome → isReserved t = false → v.store.buckets.get t = none → TornDown v.store t
  /-- Every part the report calls an orphan is reaped. -/
  parts : (multipartReport v.store).isSome → ∀ k part, v.store.parts.get k = some (.record part) →
    ¬ Owned v.store part → Reaped v.store k
  /-- No foreign path is a link that dangles. -/
  links : ∀ p entry, v.foreign.get p = some entry → entry.exists = true
  /-- No record that nothing will hold is at zero already. -/
  counts : (walkHolders v.store).isSome → ∀ id block, remaining v.store id = some block → ¬ Survives v.store id → block.rc ≠ 0
  /-- No copy of a freed block is left over. -/
  copies : ∀ id block d, remaining v.store id = some block → Freed v id block → ¬ Stray c width scrub v id block d
  /-- No record with a file of its own has an address of another width. -/
  widths : ∀ id block, remaining v.store id = some block → block.degraded = false →
    (file v id (diskDepth id block.depth)).isSome → ¬ Freed v id block → id.len = width

section Rounds

variable {c : Config} {width : ℕ} {scrub : Bool} {v v1 v' : Volume} (h : Rounds c width scrub v v1 v')
variable {cell : Cell MultiPart} {id : BlockId} {block : Block}

include h

theorem Rounds.store_eq : v'.store = { v1.store with blocks := v'.store.blocks, files := v'.store.files } := by
  obtain ⟨-, vA, vB, vC, vD, vE, hphases⟩ := h
  exact hphases.store_eq

theorem Rounds.walkHolders_eq : walkHolders v'.store = walkHolders v1.store := by
  rw [h.store_eq]
  rfl

theorem Rounds.closed_iff : (walkHolders v'.store).isSome ↔ (walkHolders v.store).isSome := by
  constructor
  · intro hclosed
    by_contra hopen
    have huntouched := h.countsUntouched hopen
    refine hopen (walkHolders_isSome.2 ?_)
    have hread := walkHolders_isSome.1 hclosed
    unfold HoldersRead at hread ⊢
    rwa [huntouched.trees, huntouched.parts] at hread
  · intro hclosed
    rw [h.walkHolders_eq]
    exact walkHolders_isSome.2 (h.first.read (walkHolders_isSome.1 hclosed))

theorem Rounds.trees_get (t : Bytes) : v'.store.trees.get t = v1.store.trees.get t := by rw [h.store_eq]

theorem Rounds.parts_get (k : Bytes) : v'.store.parts.get k = v1.store.parts.get k := by rw [h.store_eq]

theorem Rounds.uploads_eq : v'.store.uploads = v.store.uploads := by
  rw [h.store_eq]
  exact h.first.shed.uploads

theorem Rounds.buckets_eq : v'.store.buckets = v.store.buckets := by
  rw [h.store_eq]
  exact h.first.shed.buckets

/-- A part that is there after a repair was there before. -/
theorem Rounds.part_before {k : Bytes} (hget : v'.store.parts.get k = some cell) :
    v.store.parts.get k = some cell ∧ ¬ Reaped v.store k := by
  rw [h.parts_get] at hget
  have hnot : ¬ Reaped v.store k := fun hreaped => by
    cases (h.first.shed.part_gone k hreaped).symm.trans hget
  exact ⟨(h.first.shed.part_kept k hnot).symm.trans hget, hnot⟩

theorem Rounds.part_after {k : Bytes} (hget : v.store.parts.get k = some cell) (hnot : ¬ Reaped v.store k) : v'.store.parts.get k = some cell := by
  rw [h.parts_get, h.first.shed.part_kept k hnot, hget]

theorem Rounds.multipart_iff : (multipartReport v'.store).isSome ↔ (multipartReport v.store).isSome := by
  rw [multipartReport_isSome, multipartReport_isSome, h.uploads_eq]
  refine and_congr_right fun _ => ⟨fun hparts k hget => ?_, fun hparts k hget => hparts k (h.part_before hget).1⟩
  -- a garbage part is not reaped
  refine hparts k (h.part_after hget fun hreaped => ?_)
  obtain ⟨-, -, part, hpart, -⟩ := hreaped
  cases hget.symm.trans hpart

theorem Rounds.owned_iff (part : MultiPart) : Owned v'.store part ↔ Owned v.store part := by
  unfold Owned
  rw [h.uploads_eq]

/-- No part is left for a second repair to reap. -/
theorem Rounds.not_reaped (k : Bytes) : ¬ Reaped v'.store k := by
  rintro ⟨hclosed, hmulti, part, hget, horphaned⟩
  obtain ⟨hbefore, hnot⟩ := h.part_before hget
  unfold Orphaned at horphaned
  rw [h.uploads_eq] at horphaned
  exact hnot ⟨h.closed_iff.1 hclosed, h.multipart_iff.1 hmulti, part, hbefore, horphaned⟩

theorem Rounds.freed_iff : Freed v id block ↔ Unheld (countsAfter v v1.store) id ∧ block.rc ≠ 0 := by
  rw [h.first.unheld_iff, and_assoc]
  rfl

/-- A freed record is gone, any other is left. -/
theorem Rounds.recordOf_isSome (hrem : remaining v.store id = some block) :
    (recordOf v'.store id).isSome ↔ ¬ Freed v id block := by
  obtain ⟨blockM, hmended, heq, -⟩ := h.record hrem
  have hrc : blockM.rc = block.rc := by rw [hmended.same]
  rw [heq, isSome_iff_ne_none, Ne, recountedBy_eq_none, hrc, ← h.freed_iff]

theorem Rounds.counts_iff : (∀ refs, walkHolders v'.store = some refs → ∀ id block, recordOf v'.store id = some block →
      id ∈ refs ∧ block.rc = refs.count id) ↔
    ((walkHolders v.store).isSome → ∀ id block, remaining v.store id = some block → ¬ Survives v.store id → block.rc ≠ 0) := by
  constructor
  · intro hcounts hclosed id block hrem hnot hzero
    obtain ⟨refs, hrefs⟩ := Option.isSome_iff_exists.1 (h.closed_iff.2 hclosed)
    have hleft := (h.recordOf_isSome hrem).2 fun hfreed => hfreed.2.2 hzero
    obtain ⟨block', hblock'⟩ := Option.isSome_iff_exists.1 hleft
    have hid := (hcounts refs hrefs id block' hblock').1
    exact hnot ((h.survives_iff hclosed id).2 ((mem_refs_iff hrefs id).1 hid))
  intro hzero refs hrefs id block' hblock'
  have hclosed := h.closed_iff.1 (isSome_of_eq_some hrefs)
  obtain ⟨block, blockM, hrem, hmended, heq⟩ := h.origin hblock'
  rw [h.recounted_eq hclosed] at heq
  have hrc := recounted_rc heq
  have hne : occurrences v'.store id ≠ 0 := fun hocc => by
    have hnot : ¬ Survives v.store id := fun hs => (h.survives_iff hclosed id).1 hs hocc
    have hpos : blockM.rc ≠ 0 := by
      rw [hmended.same]
      exact hzero hclosed id block hrem hnot
    rw [recounted_eq_none.2 ⟨hocc, hpos⟩] at heq
    cases heq
  refine ⟨(mem_refs_iff hrefs id).2 hne, ?_⟩
  rw [Scrub.walkHolders_eq hrefs]
  exact hrc

theorem Rounds.foreign_iff :
    (walkDisk width v').foreign = [] ↔ ∀ p entry, v.foreign.get p = some entry → entry.exists = true := by
  obtain ⟨hfirst, vA, vB, vC, vD, vE, hphases⟩ := h
  have hforeign : vE.foreign = v.foreign := by rw [hphases.framed.foreign, hfirst.volume]
  have hforeign1 : v1.foreign = v.foreign := by rw [hfirst.volume]
  have hleft : ∀ p, v'.foreign.get p = leftover (v.foreign.get p) := by
    intro p
    by_cases hp : .other p ∈ (walkDisk width v1).foreign
    · rw [hphases.expel.foreign_left p hp, hforeign]
    · rw [hphases.expel.foreign_stays p hp, hforeign]
      rw [mem_foreign_other, hforeign1, not_isSome_iff_eq_none] at hp
      rw [hp]
      rfl
  have haccepts : ∀ id d, (file v' id d).isSome → accepts width id d = true := by
    intro id d hsome
    obtain ⟨bytes, hf⟩ := Option.isSome_iff_exists.1 hsome
    exact (hphases.file_eq_some.1 hf).2.1
  rw [foreign_nil, and_iff_right haccepts]
  refine forall_congr' fun p => ?_
  rw [hleft]
  cases v.foreign.get p with
  | none => simp [leftover]
  | some entry => simp [leftover_some]

theorem Rounds.trees_iff : (∀ t, (v'.store.trees.get t).isSome → isReserved t = false → (v'.store.buckets.get t).isSome) ↔
    ∀ t, (v.store.trees.get t).isSome → isReserved t = false → v.store.buckets.get t = none → TornDown v.store t := by
  refine forall_congr' fun t => ?_
  rw [h.trees_get, h.buckets_eq]
  by_cases hT : TornDown v.store t
  · simp [h.first.shed.tree_gone t hT, hT]
  · simp [h.first.shed.tree_kept t hT, hT, isSome_iff_ne_none]

theorem Rounds.parts_iff :
    ((multipartReport v'.store).isSome → ∀ k part, v'.store.parts.get k = some (.record part) → Owned v'.store part) ↔
    ((multipartReport v.store).isSome → ∀ k part, v.store.parts.get k = some (.record part) → ¬ Owned v.store part →
      Reaped v.store k) := by
  rw [h.multipart_iff]
  refine imp_congr_right fun _ => forall_congr' fun k => forall_congr' fun part => ?_
  rw [h.owned_iff]
  constructor
  · intro howned hget hnot
    by_contra hkept
    exact hnot (howned (h.part_after hget hkept))
  · intro hreaped hget
    by_contra hnot
    obtain ⟨hbefore, hkept⟩ := h.part_before hget
    exact hkept (hreaped hbefore hnot)

theorem Rounds.files_iff : (∀ id d, ¬ Deleted width v' id d) ↔
    ∀ id block d, remaining v.store id = some block → Freed v id block → ¬ Stray c width scrub v id block d := by
  have ⟨hfirst, vA, vB, vC, vD, vE, hphases⟩ := h
  constructor
  · intro hnone id block d hrem hfreed ⟨haccepts, hsome, haside, hne, hoff, hkept⟩
    have hrecord : recordOf v1.store id = some block := (hfirst.recordOf_eq id).trans hrem
    have hfile : file v1 id = file v id := hfirst.file_eq (isSome_of_eq_some hrem)
    have hadopt : ¬ Adoptable width v1 id block := by
      rintro ⟨-, hdeg, hown, -⟩
      rw [hfile] at hown
      rcases hkept with hdeg' | hsome'
      · cases hdeg.symm.trans hdeg'
      · rw [hown] at hsome'
        cases hsome'
    have hleft : (file v' id d).isSome := by
      rw [hphases.isSome_file_other hrecord hadopt, hfile]
      exact ⟨hsome, haccepts, haside, fun hown => hne hown.2.2, fun hdup => hoff hdup.2⟩
    have hgone : recordOf v'.store id = none := by
      rw [← not_isSome_iff_eq_none, h.recordOf_isSome hrem, not_not]
      exact hfreed
    exact hnone id d ⟨haccepts, hleft, .inl hgone⟩
  · intro hcopies id d ⟨haccepts, hleft, hcase⟩
    cases hrem : remaining v.store id with
    | none =>
      -- without a record every copy is deleted as an orphan
      have hrecord : recordOf v1.store id = none := (hfirst.recordOf_eq id).trans hrem
      obtain ⟨bytes, hf⟩ := Option.isSome_iff_exists.1 hleft
      obtain ⟨hf1, -, -, -, -, -, hkept⟩ := hphases.file_eq_some.1 hf
      exact hkept ⟨haccepts, isSome_of_eq_some hf1, .inl hrecord⟩
    | some block =>
      have hrecord : recordOf v1.store id = some block := (hfirst.recordOf_eq id).trans hrem
      have hfile : file v1 id = file v id := hfirst.file_eq (isSome_of_eq_some hrem)
      by_cases hadopt : Adoptable width v1 id block
      · -- only the adopted copy is left, and it is the file of the record
        obtain ⟨hland, hkept⟩ := (hphases.isSome_file_adoptable hrecord hadopt).1 hleft
        rcases hcase with hgone | ⟨block', hblock', hne, -⟩
        · rw [← not_isSome_iff_eq_none, h.recordOf_isSome hrem, not_not, h.freed_iff] at hgone
          exact hkept hgone
        obtain ⟨block1, blockM, hrem1, hmended, heq⟩ := h.origin hblock'
        cases hrem.symm.trans hrem1
        rw [recountedBy_depth heq] at hne
        exact hne (hmended.lands d hland)
      · obtain ⟨hsome, -, haside, hfree, hoff⟩ := (hphases.isSome_file_other hrecord hadopt).1 hleft
        rw [hfile] at hsome haside hoff
        rcases hcase with hgone | ⟨block', hblock', hne, hacc, hown⟩
        · rw [← not_isSome_iff_eq_none, h.recordOf_isSome hrem, not_not] at hgone
          have hunheld := h.freed_iff.1 hgone
          have hdepth : d ≠ diskDepth id block.depth := fun heq => hfree ⟨hunheld.1, hunheld.2, heq⟩
          refine hcopies id block d hrem hgone ⟨haccepts, hsome, haside, hdepth, fun hdup => hoff ⟨?_, hdup⟩, ?_⟩
          · rw [← diskDepth_of_accepts hdup.1]
            exact hdepth.symm
          by_contra hcon
          obtain ⟨hdeg, hmissing⟩ := not_or.1 hcon
          rw [Bool.not_eq_true] at hdeg
          rw [not_isSome_iff_eq_none, ← hfile] at hmissing
          have hcand : d ∈ candidates width v1 id block := (mem_candidates hmissing).2 ⟨haccepts, hfile ▸ hsome⟩
          exact hadopt ⟨hrecord, hdeg, hmissing, List.ne_nil_of_mem hcand⟩
        · obtain ⟨block1, blockM, hrem1, hmended, heq⟩ := h.origin hblock'
          cases hrem.symm.trans hrem1
          have hdepth : block'.depth = block.depth :=
            (recountedBy_depth heq).trans (hmended.stays fun d' hland => hadopt (hland.adoptable hrecord))
          rw [hdepth] at hne hacc hown
          obtain ⟨bytes, hf⟩ := Option.isSome_iff_exists.1 hown
          have hown1 := (hphases.file_eq_some.1 hf).1
          rw [hfile] at hown1
          exact hoff ⟨hne, hacc, isSome_of_eq_some hown1⟩

theorem Rounds.whole_iff : (∀ id block, recordOf v'.store id = some block → block.degraded = false →
      (file v' id (diskDepth id block.depth)).isSome) ↔
    ∀ id block, remaining v.store id = some block → block.degraded = false →
      (file v id (diskDepth id block.depth)).isSome → ¬ Freed v id block → id.len = width := by
  have ⟨hfirst, vA, vB, vC, vD, vE, hphases⟩ := h
  constructor
  · intro hwhole id block hrem hdeg hown hkept
    by_contra hwidth
    have hfile : file v1 id = file v id := hfirst.file_eq (isSome_of_eq_some hrem)
    have hnoLand : ∀ d, ¬ Lands c width v1 id block d := fun d hland => by
      rw [← hfile, hland.2.1] at hown
      cases hown
    obtain ⟨block', hblock'⟩ := Option.isSome_iff_exists.1 ((h.recordOf_isSome hrem).2 hkept)
    obtain ⟨block1, blockM, hrem1, hmended, heq⟩ := h.origin hblock'
    cases hrem.symm.trans hrem1
    have hintact : block'.degraded = false := by
      rw [recountedBy_degraded heq, ← Bool.not_eq_true, hmended.flag]
      rintro (hdeg' | ⟨d, -, haccepts, -⟩ | ⟨hmissing, -⟩)
      · rw [hdeg] at hdeg'
        cases hdeg'
      · exact hwidth (accepts_iff.1 haccepts).1
      · rw [← hfile, hmissing] at hown
        cases hown
    obtain ⟨bytes, hf⟩ := Option.isSome_iff_exists.1 (hwhole id block' hblock' hintact)
    exact hwidth (accepts_iff.1 (hphases.file_eq_some.1 hf).2.1).1
  · intro hwidths id block' hblock' hintact
    obtain ⟨block, blockM, hrem, hmended, heq⟩ := h.origin hblock'
    have hrecord : recordOf v1.store id = some block := (hfirst.recordOf_eq id).trans hrem
    have hfile : file v1 id = file v id := hfirst.file_eq (isSome_of_eq_some hrem)
    have hkept : ¬ Freed v id block := (h.recordOf_isSome hrem).1 (isSome_of_eq_some hblock')
    have hkept' : ¬ (Unheld (countsAfter v v1.store) id ∧ block.rc ≠ 0) := fun hfree => hkept (h.freed_iff.2 hfree)
    have hflag : ¬ blockM.degraded = true := by
      rw [← recountedBy_degraded heq, hintact]
      exact Bool.false_ne_true
    rw [hmended.flag] at hflag
    push Not at hflag
    obtain ⟨hdeg, haside, hown⟩ := hflag
    rw [recountedBy_depth heq]
    by_cases hland : ∃ d, Lands c width v1 id block d
    · obtain ⟨d, hland⟩ := hland
      rw [hmended.lands d hland, diskDepth_of_accepts hland.2.2.1,
        hphases.isSome_file_adoptable hrecord (hland.adoptable hrecord)]
      exact ⟨hland, hkept'⟩
    push Not at hland
    have hpresent : (file v1 id (diskDepth id block.depth)).isSome := by
      rw [isSome_iff_ne_none]
      intro hmissing
      obtain ⟨d, hd⟩ := hown hmissing
      exact hland d hd
    have hadopt : ¬ Adoptable width v1 id block := fun hadopt => by
      rw [hadopt.2.2.1] at hpresent
      cases hpresent
    have hwidth : id.len = width := hwidths id block hrem (Bool.eq_false_iff.2 hdeg) (hfile ▸ hpresent) hkept
    have haccepts : accepts width id (diskDepth id block.depth) = true :=
      accepts_iff.2 ⟨hwidth, diskDepth_bounds id block.depth⟩
    rw [hmended.stays hland, hphases.isSome_file_other hrecord hadopt]
    refine ⟨hpresent, haccepts, haside _, fun hfree => hkept' ⟨hfree.1, hfree.2.1⟩, fun hoff => hoff.1 ?_⟩
    exact (diskDepth_of_accepts hoff.2.1).symm

/-- A corrupt copy that is left would have been set aside. -/
theorem Rounds.not_setAside (id : BlockId) (d : ℕ) : ¬ SetAside c width scrub id (file v' id) d := by
  have ⟨hfirst, vA, vB, vC, vD, vE, hphases⟩ := h
  rintro ⟨hscrub, haccepts, bytes, hf, hhash⟩
  obtain ⟨hf1, -, haside, -⟩ := hphases.file_eq_some.1 hf
  exact haside ⟨hscrub, haccepts, bytes, hf1, hhash⟩

/-- **What a repair leaves**, in terms of what it is given. -/
theorem Rounds.noneLeft_iff : NoneLeft c width scrub v' ↔ Repairable c width scrub v := by
  constructor
  · intro hnone
    exact ⟨h.trees_iff.1 hnone.trees, h.parts_iff.1 hnone.parts, h.foreign_iff.1 hnone.foreign, h.counts_iff.1 hnone.counts,
      h.files_iff.1 hnone.files, h.whole_iff.1 hnone.whole⟩
  · intro hrep
    exact ⟨h.counts_iff.2 hrep.counts, h.files_iff.2 hrep.copies, h.foreign_iff.2 hrep.links, h.whole_iff.2 hrep.widths,
      h.not_setAside, h.trees_iff.2 hrep.trees, h.parts_iff.2 hrep.parts⟩

end Rounds

/-- **What a repair does to the records that name blocks**: it takes away the trees it tears down and the parts it reaps,
and touches nothing else. -/
theorem repair_leaves {c : Config} {width : ℕ} {scrub : Bool} {v v' : Volume} (h : fsckRepair c width scrub v = some v') :
    v'.store.buckets = v.store.buckets ∧ v'.store.uploads = v.store.uploads ∧
      (∀ k, v'.store.parts.get k = v.store.parts.get k ∨ v'.store.parts.get k = none ∧ Reaped v.store k) ∧
      ∀ t, v'.store.trees.get t = v.store.trees.get t ∨ v'.store.trees.get t = none ∧ TornDown v.store t := by
  obtain ⟨v1, h⟩ := fsckRepair_rounds h
  refine ⟨h.buckets_eq, h.uploads_eq, fun k => ?_, fun t => ?_⟩
  · rw [h.parts_get]
    exact (em (Reaped v.store k)).symm.imp (h.first.shed.part_kept k) fun hk => ⟨h.first.shed.part_gone k hk, hk⟩
  · rw [h.trees_get]
    exact (em (TornDown v.store t)).symm.imp (h.first.shed.tree_kept t) fun ht => ⟨h.first.shed.tree_gone t ht, ht⟩

/-- The tree of the half-deleted bucket `d` is gone, for it was torn down; that of `b` stays. -/
theorem repair_leaves_stranded : ∃ v', fsckRepair abcConfig 32 true (strandedVolume 2) = some v' ∧
    v'.store.buckets = (strandedVolume 2).store.buckets ∧ v'.store.trees.get [100] = none ∧
    TornDown (strandedVolume 2).store [100] ∧
    v'.store.trees.get [98] = (strandedVolume 2).store.trees.get [98] := by
  have hrun : (fsckRepair abcConfig 32 true (strandedVolume 2)).map (fun v' => v'.store.trees.keys) =
      some [[98]] := by decide +kernel
  obtain ⟨v', hv', htrees⟩ := Option.map_eq_some_iff.1 hrun
  obtain ⟨hbuckets, -, -, hleft⟩ := repair_leaves hv'
  have hgone : v'.store.trees.get [100] = none := by
    rw [← Option.not_isSome_iff_eq_none, ← OrdMap.mem_keys, htrees]
    decide
  have hkept : (v'.store.trees.get [98]).isSome := OrdMap.mem_keys.1 (by rw [htrees]; decide)
  refine ⟨v', hv', hbuckets, hgone, ?_, ?_⟩
  · rcases hleft [100] with hsame | ⟨-, htorn⟩
    · rw [hgone] at hsame
      exact absurd hsame.symm (by decide +kernel)
    · exact htorn
  · rcases hleft [98] with hsame | ⟨hnone, -⟩
    · exact hsame
    · rw [hnone] at hkept
      cases hkept

/-- One repair is enough: the summary has nothing of a class the engine claims to repair and
is not flagged, and the same repair once more changes nothing. -/
def Settles (c : Config) (width : ℕ) (scrub : Bool) (report : Report) (v : Volume) : Prop :=
  ∃ v' post, repairSummary c width scrub report v = some (v', post) ∧
    (∀ f ∈ post.findings, isRepairable f.kind = false) ∧ (∀ f ∈ post.findings, f.kind ≠ .postRepairRecountDirty) ∧
    fsckRepair c width scrub v' = some v'

theorem Rounds.run_isSome {c : Config} {width : ℕ} {scrub : Bool} {v v1 v' : Volume} (h : Rounds c width scrub v v1 v')
    (hrun : (run c width scrub v).isSome) : (run c width scrub v').isSome := by
  have hnames : ∀ s : Store, (bucketIntegrity s).isSome = s.buckets.keys.all isUtf8 := by
    intro s
    unfold bucketIntegrity strandedTrees listBucketNames
    rw [isSome_map, isSome_map]
    cases s.buckets.keys.all isUtf8 <;> rfl
  unfold run at hrun ⊢
  dsimp only at hrun ⊢
  rw [isSome_map, hnames] at hrun ⊢
  rwa [h.buckets_eq]

/-- **Which volumes one repair settles.** -/
theorem repair_settles_iff (c : Config) (width : ℕ) (scrub : Bool) (v : Volume) (report : Report)
    (hrun : run c width scrub v = some report) : Settles c width scrub report v ↔ Repairable c width scrub v := by
  obtain ⟨v1, v', hfsck, hrounds⟩ := run_rounds hrun
  have hrepair : repair c width report v = some v' := by
    unfold fsckRepair at hfsck
    rwa [hrun] at hfsck
  obtain ⟨post, hpost⟩ := Option.isSome_iff_exists.1 (hrounds.run_isSome (Option.isSome_of_eq_some hrun))
  have hsummary : repairSummary c width scrub report v = some (v', flagUnfinished post) := by
    unfold repairSummary
    simp only [hrepair, hpost, Option.map_some]
  rw [← hrounds.noneLeft_iff, ← noneLeft_iff hpost]
  constructor
  · rintro ⟨v'', post', hsummary', hclean, -, -⟩
    cases hsummary.symm.trans hsummary'
    exact fun f hf => hclean f (List.mem_append_left _ hf)
  intro hclean
  have hnil : (flagUnfinished post).findings = post.findings := flagUnfinished_findings hclean
  refine ⟨v', _, hsummary, by rwa [hnil], ?_, ?_⟩
  · rw [hnil]
    exact run_not_dirty hpost
  · exact fsckRepair_eq_self hpost ((noneLeft_iff hpost).1 hclean) hrounds.not_reaped

/-- The half-deleted bucket is torn down and the count of the block is right at once. -/
theorem repair_settles_stranded : ∃ report, run abcConfig 32 true (strandedVolume 2) = some report ∧
    Repairable abcConfig 32 true (strandedVolume 2) ∧ Settles abcConfig 32 true report (strandedVolume 2) := by
  have hclean : ((run abcConfig 32 true (strandedVolume 2)).bind fun report =>
      (repair abcConfig 32 report (strandedVolume 2)).bind fun v' => (run abcConfig 32 true v').map fun post =>
        post.findings.all fun f => !isRepairable f.kind) = some true := by decide +kernel
  obtain ⟨report, hrun, hclean⟩ := Option.bind_eq_some_iff.1 hclean
  obtain ⟨v', hrepair, hclean⟩ := Option.bind_eq_some_iff.1 hclean
  obtain ⟨post, hpost, hclean⟩ := Option.map_eq_some_iff.1 hclean
  obtain ⟨v1, hrounds⟩ := fsckRepair_rounds (fsckRepair_of_repair hrun hrepair)
  have hrep : Repairable abcConfig 32 true (strandedVolume 2) := by
    rw [← hrounds.noneLeft_iff, ← noneLeft_iff hpost]
    intro f hf
    rw [← Bool.not_eq_true']
    exact List.all_eq_true.1 hclean f hf
  exact ⟨report, hrun, hrep, (repair_settles_iff _ _ _ _ _ hrun).2 hrep⟩

/-- A degraded record of a block that nothing holds, and a copy of the block at another depth. -/
def strayVolume : Volume :=
  { abcVolume ∅ with
    store := { Store.empty with
      blocks := OrdMap.insert ∅ abcId (.record ⟨3, 1, 1, true, 0⟩)
      files := OrdMap.insert ∅ (toLex (abcId, 2)) abc } }

/-- The record is freed, its copy becomes an orphan, and a second repair deletes it. -/
theorem stray_copy_left : ∃ report v' post v'', run abcConfig 32 true strayVolume = some report ∧
    repairSummary abcConfig 32 true report strayVolume = some (v', post) ∧
    ⟨.postRepairRecountDirty, none, none⟩ ∈ post.findings ∧ file v' abcId 2 = some abc ∧
    fsckRepair abcConfig 32 true v' = some v'' ∧ file v'' abcId 2 = none ∧
    ¬ Settles abcConfig 32 true report strayVolume := by
  have hrun : ((run abcConfig 32 true strayVolume).bind fun report =>
      (repairSummary abcConfig 32 true report strayVolume).bind fun p => (fsckRepair abcConfig 32 true p.1).map fun v'' =>
        (decide (⟨.postRepairRecountDirty, none, none⟩ ∈ p.2.findings), file p.1 abcId 2, file v'' abcId 2)) =
      some (true, some abc, none) := by decide +kernel
  obtain ⟨report, hrun, hout⟩ := Option.bind_eq_some_iff.1 hrun
  obtain ⟨⟨v', post⟩, hsummary, hout⟩ := Option.bind_eq_some_iff.1 hout
  obtain ⟨v'', hagain, hout⟩ := Option.map_eq_some_iff.1 hout
  simp only [Prod.mk.injEq, decide_eq_true_eq] at hout
  obtain ⟨hdirty, hbefore, hafter⟩ := hout
  refine ⟨report, v', post, v'', hrun, hsummary, hdirty, hbefore, hagain, hafter, ?_⟩
  rintro ⟨u, post', hsummary', -, hclean, -⟩
  cases hsummary.symm.trans hsummary'
  exact hclean _ hdirty rfl

end QssStorage.Scrub
