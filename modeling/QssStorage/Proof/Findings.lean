import QssStorage.Proof.Teardown
import QssStorage.Proof.Plan

/-!
# What the passes find

Each pass in terms of the records, files and rows it looks at: which findings it makes, and of
which class. `mem_findings` puts them together for a report.

* `mem_recordFindings`, `mem_recount`, `mem_diskSweep`, `mem_danglingSweep`, `mem_corruptionScrub`,
  `mem_multipartReport`, `mem_bucketIntegrity`: one statement for each pass.
-/

namespace QssStorage.Scrub

open List

variable {f : Finding} {s : Store} {v : Volume} {width : ℕ}

theorem mem_undecodable {id : BlockId} : id ∈ undecodable s ↔ s.blocks.get id = some .garbage := by
  unfold undecodable
  rw [mem_filterMap]
  constructor
  · rintro ⟨⟨k, cell⟩, he, hf⟩
    cases cell with
    | record block => cases hf
    | garbage =>
      cases hf
      exact OrdMap.mem_entries.1 he
  · exact fun hget => ⟨(id, .garbage), OrdMap.mem_entries.2 hget, rfl⟩

/-- `walk_records`. -/
theorem mem_recordFindings : f ∈ recordFindings v ↔ (v.misfiled ≠ [] ∧ f = ⟨.undecodableBlockRecord, none, none⟩) ∨
      ∃ id, v.store.blocks.get id = some .garbage ∧ f = ⟨.undecodableBlockRecord, some id, none⟩ := by
  unfold recordFindings
  rw [mem_append, mem_map, mem_map]
  refine or_congr ?_ (exists_congr fun id => ?_)
  · constructor
    · rintro ⟨key, hkey, rfl⟩
      exact ⟨ne_nil_of_mem hkey, rfl⟩
    · rintro ⟨hne, rfl⟩
      obtain ⟨key, hkey⟩ := exists_mem_of_ne_nil _ hne
      exact ⟨key, hkey, rfl⟩
  · rw [mem_undecodable, eq_comm (b := f)]

/-- `recount`. -/
theorem mem_recount {refs : List BlockId} : f ∈ recount refs s ↔
    (∃ id ∈ refs, recordOf s id = none ∧ f = ⟨.missingBlockRecord, some id, none⟩) ∨
      (∃ id block, recordOf s id = some block ∧ (id ∉ refs ∨ refs.count id < block.rc) ∧
        f = ⟨.refcountOverCount, some id, none⟩) ∨
      ∃ id ∈ refs, ∃ block, recordOf s id = some block ∧ block.rc < refs.count id ∧
        f = ⟨.refcountUnderCount, some id, none⟩ := by
  unfold recount
  rw [mem_append, mem_filterMap, mem_filterMap]
  constructor
  · rintro (⟨id, hid, hf⟩ | ⟨⟨id, block⟩, hr, hf⟩)
    · rw [mem_dedup] at hid
      split at hf
      · rename_i hnone
        cases hf
        exact .inl ⟨id, hid, hnone, rfl⟩
      rename_i block hblock
      split_ifs at hf with hover hunder
      · cases hf
        exact .inr (.inl ⟨id, block, hblock, .inr hover, rfl⟩)
      · cases hf
        exact .inr (.inr ⟨id, hid, block, hblock, hunder, rfl⟩)
    · dsimp only at hf
      split_ifs at hf with hid
      cases hf
      exact .inr (.inl ⟨id, block, mem_walkRecords.1 hr, .inl hid, rfl⟩)
  · rintro (⟨id, hid, hnone, rfl⟩ | ⟨id, block, hblock, hover, rfl⟩ | ⟨id, hid, block, hblock, hunder, rfl⟩)
    · refine .inl ⟨id, mem_dedup.2 hid, ?_⟩
      rw [hnone]
    · by_cases hid : id ∈ refs
      · refine .inl ⟨id, mem_dedup.2 hid, ?_⟩
        rw [hblock]
        exact if_pos (hover.resolve_left (not_not.2 hid))
      · exact .inr ⟨(id, block), mem_walkRecords.2 hblock, if_neg hid⟩
    · refine .inl ⟨id, mem_dedup.2 hid, ?_⟩
      rw [hblock]
      dsimp only
      rw [if_neg (by omega), if_pos hunder]

/-- `disk_sweep`. -/
theorem mem_diskSweep : f ∈ diskSweep (walkDisk width v) v.store ↔
    (∃ id d, accepts width id d = true ∧ (file v id d).isSome ∧ recordOf v.store id = none ∧
        f = ⟨.orphanFile, some id, some (.block id d)⟩) ∨
      (∃ id d block, accepts width id d = true ∧ (file v id d).isSome ∧ recordOf v.store id = some block ∧ block.depth ≠ d ∧
        accepts width id block.depth = true ∧ (file v id block.depth).isSome ∧
        f = ⟨.offDepthFile, some id, some (.block id d)⟩) ∨
      (∃ id block bytes, accepts width id block.depth = true ∧ file v id block.depth = some bytes ∧
        recordOf v.store id = some block ∧ block.size ≠ bytes.length ∧
        f = ⟨.sizeMismatch, some id, some (.block id block.depth)⟩) ∨
      ∃ path ∈ (walkDisk width v).foreign, f = ⟨.foreignFile, none, some path⟩ := by
  unfold diskSweep
  rw [mem_append, mem_filterMap, mem_map]
  constructor
  · rintro (⟨⟨id, d, bytes⟩, hfile, hf⟩ | ⟨path, hpath, rfl⟩)
    · obtain ⟨haccepts, hget⟩ := mem_walkDisk.1 hfile
      have hsome : (file v id d).isSome := by rw [hget]; rfl
      dsimp only at hf
      split at hf
      · rename_i hnone
        cases hf
        exact .inl ⟨id, d, haccepts, hsome, hnone, rfl⟩
      rename_i block hblock
      split_ifs at hf with hdepth hpresent hsize
      · cases hf
        obtain ⟨hown, hownFile⟩ := present_iff.1 hpresent
        exact .inr (.inl ⟨id, d, block, haccepts, hsome, hblock, hdepth, hown, hownFile, rfl⟩)
      · cases hf
        rw [ne_eq, not_not] at hdepth
        cases hdepth
        exact .inr (.inr (.inl ⟨id, block, bytes, haccepts, hget, hblock, hsize, rfl⟩))
    · exact .inr (.inr (.inr ⟨path, hpath, rfl⟩))
  · rintro (⟨id, d, haccepts, hsome, hnone, rfl⟩ | ⟨id, d, block, haccepts, hsome, hblock, hdepth, hown, hownFile, rfl⟩ |
      ⟨id, block, bytes, haccepts, hget, hblock, hsize, rfl⟩ | ⟨path, hpath, rfl⟩)
    · obtain ⟨bytes, hget⟩ := Option.isSome_iff_exists.1 hsome
      refine .inl ⟨⟨id, d, bytes⟩, mem_walkDisk.2 ⟨haccepts, hget⟩, ?_⟩
      simp only [hnone]
    · obtain ⟨bytes, hget⟩ := Option.isSome_iff_exists.1 hsome
      refine .inl ⟨⟨id, d, bytes⟩, mem_walkDisk.2 ⟨haccepts, hget⟩, ?_⟩
      simp only [hblock, if_pos hdepth, present_iff.2 ⟨hown, hownFile⟩, if_true]
    · refine .inl ⟨⟨id, block.depth, bytes⟩, mem_walkDisk.2 ⟨haccepts, hget⟩, ?_⟩
      simp only [hblock, ne_eq, not_true_eq_false, if_false]
      exact if_pos hsize
    · exact .inr ⟨path, hpath, rfl⟩

/-- `dangling_sweep`. -/
theorem mem_danglingSweep : f ∈ danglingSweep (walkDisk width v) v.store ↔ ∃ id block, recordOf v.store id = some block ∧
      ((block.degraded = true ∧ f = ⟨.degradedRecord, some id, some (.block id (diskDepth id block.depth))⟩) ∨
        (block.degraded = false ∧ file v id (diskDepth id block.depth) = none ∧
          f = if elsewhere (walkDisk width v) id block.depth = [] then
              ⟨.danglingRecord, some id, some (.block id (diskDepth id block.depth))⟩
            else ⟨.adoptableDanglingRecord, some id, some (.block id (diskDepth id block.depth))⟩)) := by
  unfold danglingSweep
  rw [mem_filterMap]
  constructor
  · rintro ⟨⟨id, block⟩, hr, hf⟩
    refine ⟨id, block, mem_walkRecords.1 hr, ?_⟩
    dsimp only at hf
    split_ifs at hf with hdeg hown hempty
    · cases hf
      exact .inl ⟨hdeg, rfl⟩
    · cases hf
      refine .inr ⟨Bool.eq_false_iff.2 hdeg, isFile_eq_false.1 (Bool.eq_false_iff.2 hown), ?_⟩
      rw [if_pos (isEmpty_iff.1 hempty)]
    · cases hf
      refine .inr ⟨Bool.eq_false_iff.2 hdeg, isFile_eq_false.1 (Bool.eq_false_iff.2 hown), ?_⟩
      rw [if_neg fun h => hempty (isEmpty_iff.2 h)]
  · rintro ⟨id, block, hrecord, ⟨hdeg, rfl⟩ | ⟨hdeg, hown, rfl⟩⟩
    · refine ⟨(id, block), mem_walkRecords.2 hrecord, ?_⟩
      simp only [hdeg, if_true]
    · refine ⟨(id, block), mem_walkRecords.2 hrecord, ?_⟩
      simp only [hdeg, isFile_eq_false.2 hown, Bool.false_eq_true, if_false, List.isEmpty_iff]
      split <;> rfl

/-- `corruption_scrub`. -/
theorem mem_corruptionScrub {c : Config} : f ∈ corruptionScrub c (walkDisk width v) ↔
      ∃ id d, accepts width id d = true ∧ Bad c id (file v id) d ∧ f = ⟨.corruptBlock, some id, some (.block id d)⟩ := by
  unfold corruptionScrub
  rw [mem_filterMap]
  constructor
  · rintro ⟨⟨id, d, bytes⟩, hfile, hf⟩
    obtain ⟨haccepts, hget⟩ := mem_walkDisk.1 hfile
    dsimp only at hf
    split_ifs at hf with hhash
    cases hf
    exact ⟨id, d, haccepts, ⟨bytes, hget, hhash⟩, rfl⟩
  · rintro ⟨id, d, haccepts, ⟨bytes, hget, hhash⟩, rfl⟩
    exact ⟨⟨id, d, bytes⟩, mem_walkDisk.2 ⟨haccepts, hget⟩, if_pos hhash⟩

/-- Some upload record names the upload of the part. -/
def Owned (s : Store) (part : MultiPart) : Prop :=
  ∃ k u, s.uploads.get k = some (.record u) ∧ (u.bucket, u.key, u.uploadId) = (part.bucket, part.key, part.uploadId)

theorem mem_cells {K α : Type} [LinearOrder K] {m : OrdMap K (Cell α)} {as : List α}
    (h : decodeAll (m.entries.map Prod.snd) = some as) (a : α) : a ∈ as ↔ ∃ k, m.get k = some (.record a) := by
  rw [mem_decodeAll h, mem_map]
  constructor
  · rintro ⟨⟨k, cell⟩, he, rfl⟩
    exact ⟨k, OrdMap.mem_entries.1 he⟩
  · rintro ⟨k, hget⟩
    exact ⟨(k, .record a), OrdMap.mem_entries.2 hget, rfl⟩

/-- `multipart_report`. -/
theorem mem_multipartReport {findings : List Finding} (h : multipartReport s = some findings) :
    f ∈ findings ↔ ((∃ k u, s.uploads.get k = some (.record u)) ∧ f = ⟨.multipartUpload, none, none⟩) ∨
      ((∃ k part, s.parts.get k = some (.record part) ∧ ¬ Owned s part) ∧ f = ⟨.orphanPart, none, none⟩) := by
  unfold multipartReport at h
  split at h
  · rename_i uploads parts hu hp
    cases h
    have howned : ∀ part : MultiPart, (part.bucket, part.key, part.uploadId) ∈
        (uploads.map fun u => (u.bucket, u.key, u.uploadId)).dedup ↔ Owned s part := by
      intro part
      rw [mem_dedup, mem_map]
      constructor
      · rintro ⟨u, hmem, heq⟩
        obtain ⟨k, hget⟩ := (mem_cells hu u).1 hmem
        exact ⟨k, u, hget, heq⟩
      · rintro ⟨k, u, hget, heq⟩
        exact ⟨u, (mem_cells hu u).2 ⟨k, hget⟩, heq⟩
    rw [mem_append, mem_map, mem_filterMap]
    refine or_congr ?_ ?_
    · constructor
      · rintro ⟨triple, htriple, rfl⟩
        rw [mem_dedup, mem_map] at htriple
        obtain ⟨u, hmem, -⟩ := htriple
        obtain ⟨k, hget⟩ := (mem_cells hu u).1 hmem
        exact ⟨⟨k, u, hget⟩, rfl⟩
      · rintro ⟨⟨k, u, hget⟩, rfl⟩
        exact ⟨_, mem_dedup.2 (mem_map.2 ⟨u, (mem_cells hu u).2 ⟨k, hget⟩, rfl⟩), rfl⟩
    · constructor
      · rintro ⟨part, hmem, hf⟩
        split_ifs at hf with hin
        cases hf
        obtain ⟨k, hget⟩ := (mem_cells hp part).1 hmem
        exact ⟨⟨k, part, hget, fun ho => hin ((howned part).2 ho)⟩, rfl⟩
      · rintro ⟨⟨k, part, hget, hnot⟩, rfl⟩
        exact ⟨part, (mem_cells hp part).2 ⟨k, hget⟩, if_neg fun hin => hnot ((howned part).1 hin)⟩
  · cases h

/-- `bucket_integrity`. -/
theorem mem_bucketIntegrity {findings : List Finding} (h : bucketIntegrity s = some findings) :
    f ∈ findings ↔ (∃ t, (s.trees.get t).isSome ∧ isReserved t = false ∧ s.buckets.get t = none) ∧
      f = ⟨.halfDeletedBucket, none, none⟩ := by
  unfold bucketIntegrity at h
  obtain ⟨trees, htrees, rfl⟩ := Option.map_eq_some_iff.1 h
  rw [mem_map]
  constructor
  · rintro ⟨t, ht, rfl⟩
    exact ⟨⟨t, (mem_strandedTrees htrees).1 ht⟩, rfl⟩
  · rintro ⟨⟨t, ht⟩, rfl⟩
    exact ⟨t, (mem_strandedTrees htrees).2 ht, rfl⟩

end QssStorage.Scrub
