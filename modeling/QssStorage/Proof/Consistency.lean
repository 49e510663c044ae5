import QssStorage.Proof.Findings
import QssStorage.Proof.Recount

/-!
# What a report without findings says

The metadata-only report divides a store among its passes, and a file one pass leaves alone is
another's to report. `ConsistentBut` says what a store has to be for no pass to find anything;
the passes look away from records whose depth no path has, as the path builder clamps it
and the disk sweep does not.

* `report_clean_iff`: a report is without findings exactly for consistent stores, unless the
  store is one of those it misjudges.
-/

namespace QssStorage.Scrub

open Option

/-- The store is consistent, but for size and copies of the `exempt` records. -/
structure ConsistentBut (exempt : BlockId → Block → Prop) (v : Volume) : Prop where
  /-- What an object or a part names has a record that counts its occurrences. -/
  counted : ∀ id, occurrences v.store id ≠ 0 → ∃ block, recordOf v.store id = some block ∧ block.rc = occurrences v.store id
  /-- No record is unreferenced. -/
  referenced : ∀ id, (v.store.blocks.get id).isSome → occurrences v.store id ≠ 0
  addressed : v.misfiled = []
  intact : ∀ id block, recordOf v.store id = some block → block.degraded = false
  /-- Every record has a file of its size at its own path. -/
  sized : ∀ id block, recordOf v.store id = some block →
    ∃ bytes, file v id (diskDepth id block.depth) = some bytes ∧ (bytes.length = block.size ∨ exempt id block)
  /-- Everything under the blocks root is the own file of a record. -/
  own : ∀ id d, (file v id d).isSome → ∃ block, recordOf v.store id = some block ∧
    (d = diskDepth id block.depth ∨ exempt id block ∧ 1 ≤ d ∧ d ≤ id.len)
  familiar : ∀ p, v.foreign.get p = none
  rows : ∀ t, (v.store.trees.get t).isSome → isReserved t = false → (v.store.buckets.get t).isSome
  uploads : ∀ k, v.store.uploads.get k = none
  parts : ∀ k cell, v.store.parts.get k = some cell → ∃ part, cell = .record part ∧ Owned v.store part

/-- The store is consistent. -/
def Consistent (v : Volume) : Prop := ConsistentBut (fun _ _ => False) v

/-- No path has the depth of the record, and the path of its file is that of another depth. -/
def Clamped (id : BlockId) (block : Block) : Prop := diskDepth id block.depth ≠ block.depth

/-- Every object decodes. -/
def ObjectsDecode (s : Store) : Prop :=
  ∀ t tree, s.trees.get t = some tree → isReserved t = false → ∀ k, tree.get k ≠ some .garbage

/-- Every block record is of the store's width. -/
def WidthsFit (width : ℕ) (s : Store) : Prop := ∀ id block, recordOf s id = some block → id.len = width

theorem Consistent.mono {v : Volume} (h : Consistent v) (exempt : BlockId → Block → Prop) : ConsistentBut exempt v where
  counted := h.counted
  referenced := h.referenced
  addressed := h.addressed
  intact := h.intact
  sized id block hrecord := by
    obtain ⟨bytes, hf, hsize⟩ := h.sized id block hrecord
    exact ⟨bytes, hf, hsize.imp_right False.elim⟩
  own id d hsome := by
    obtain ⟨block, hrecord, hd⟩ := h.own id d hsome
    exact ⟨block, hrecord, hd.imp_right fun h => h.1.elim⟩
  familiar := h.familiar
  rows := h.rows
  uploads := h.uploads
  parts := h.parts

theorem diskDepth_bounds (id : BlockId) (depth : ℕ) : 1 ≤ diskDepth id depth ∧ diskDepth id depth ≤ id.len := by
  have hpos := id.len_pos
  unfold diskDepth
  omega

theorem accepts_iff {width : ℕ} {id : BlockId} {d : ℕ} :
    accepts width id d = true ↔ id.len = width ∧ 1 ≤ d ∧ d ≤ id.len := by
  unfold accepts
  simp only [Bool.and_eq_true, decide_eq_true_eq, and_assoc]

theorem mem_refs_iff {s : Store} {refs : List BlockId} (h : walkHolders s = some refs) (id : BlockId) :
    id ∈ refs ↔ occurrences s id ≠ 0 := by
  rw [walkHolders_eq h, occurrences, Ne, List.count_eq_zero, not_not]

theorem bucketIntegrity_isSome {c : Config} {width : ℕ} {scrub : Bool} {v : Volume} {report : Report}
    (h : run c width scrub v = some report) : (bucketIntegrity v.store).isSome := by
  rw [bucketIntegrity, isSome_map]
  exact (run_ran h).2.2.2

section Consistent

variable {exempt : BlockId → Block → Prop} {v : Volume} (h : ConsistentBut exempt v)
include h

theorem ConsistentBut.parts_none (k : Bytes) : v.store.parts.get k = none := by
  cases hget : v.store.parts.get k with
  | none => rfl
  | some cell =>
    obtain ⟨_, -, k', u, hu, -⟩ := h.parts k cell hget
    cases (h.uploads k').symm.trans hu

theorem ConsistentBut.holdersRead (hdecode : ObjectsDecode v.store) : HoldersRead v.store :=
  ⟨hdecode, fun k => by rw [h.parts_none k]; exact nofun⟩

/-- Every file is one that a walk accepts. -/
theorem ConsistentBut.accepts_file {width : ℕ} (hfit : WidthsFit width v.store) {id : BlockId} {d : ℕ}
    (hsome : (file v id d).isSome) : accepts width id d = true := by
  obtain ⟨block, hrecord, hd⟩ := h.own id d hsome
  have hbounds := diskDepth_bounds id block.depth
  refine accepts_iff.2 ⟨hfit id block hrecord, ?_⟩
  rcases hd with rfl | ⟨-, hd⟩
  · exact hbounds
  · exact hd

end Consistent

/-! ## Passes that find nothing -/

section Passes

variable {width : ℕ} {v : Volume} {s : Store}

theorem recordFindings_nil : recordFindings v = [] ↔ v.misfiled = [] ∧ ∀ id, v.store.blocks.get id ≠ some .garbage := by
  rw [List.eq_nil_iff_forall_not_mem]
  constructor
  · intro h
    constructor
    · by_contra hne
      exact h _ (mem_recordFindings.2 (.inl ⟨hne, rfl⟩))
    · exact fun id hget => h _ (mem_recordFindings.2 (.inr ⟨id, hget, rfl⟩))
  · rintro ⟨hnil, hdecode⟩ f hf
    rcases mem_recordFindings.1 hf with ⟨hne, -⟩ | ⟨id, hget, -⟩
    · exact hne hnil
    · exact hdecode id hget

theorem recount_nil {refs : List BlockId} : recount refs s = [] ↔
    (∀ id ∈ refs, ∃ block, recordOf s id = some block ∧ block.rc = refs.count id) ∧
      ∀ id block, recordOf s id = some block → id ∈ refs := by
  rw [List.eq_nil_iff_forall_not_mem]
  constructor
  · intro h
    constructor
    · intro id hid
      cases hrecord : recordOf s id with
      | none => exact (h _ (mem_recount.2 (.inl ⟨id, hid, hrecord, rfl⟩))).elim
      | some block =>
        refine ⟨block, rfl, le_antisymm ?_ ?_⟩
        · by_contra hover
          have hlt : refs.count id < block.rc := by omega
          exact h _ (mem_recount.2 (.inr (.inl ⟨id, block, hrecord, .inr hlt, rfl⟩)))
        · by_contra hunder
          have hlt : block.rc < refs.count id := by omega
          exact h _ (mem_recount.2 (.inr (.inr ⟨id, hid, block, hrecord, hlt, rfl⟩)))
    · intro id block hrecord
      by_contra hid
      exact h _ (mem_recount.2 (.inr (.inl ⟨id, block, hrecord, .inl hid, rfl⟩)))
  · rintro ⟨hcounted, hheld⟩ f hf
    rcases mem_recount.1 hf with ⟨id, hid, hnone, -⟩ | ⟨id, block, hrecord, hover, -⟩ | ⟨id, hid, block, hrecord, hunder, -⟩
    · obtain ⟨block, hrecord, -⟩ := hcounted id hid
      cases hnone.symm.trans hrecord
    · have hid := hheld id block hrecord
      obtain ⟨block', hrecord', hrc⟩ := hcounted id hid
      cases hrecord.symm.trans hrecord'
      have hlt := hover.resolve_left (not_not.2 hid)
      omega
    · obtain ⟨block', hrecord', hrc⟩ := hcounted id hid
      cases hrecord.symm.trans hrecord'
      omega

theorem danglingSweep_nil : danglingSweep (walkDisk width v) v.store = [] ↔ ∀ id block, recordOf v.store id = some block →
    block.degraded = false ∧ ∃ bytes, file v id (diskDepth id block.depth) = some bytes := by
  rw [List.eq_nil_iff_forall_not_mem]
  constructor
  · intro h id block hrecord
    have hdeg : block.degraded = false := by
      by_contra hdeg
      rw [Bool.not_eq_false] at hdeg
      exact h _ (mem_danglingSweep.2 ⟨id, block, hrecord, .inl ⟨hdeg, rfl⟩⟩)
    refine ⟨hdeg, ?_⟩
    rw [← isSome_iff_exists, isSome_iff_ne_none]
    exact fun hown => h _ (mem_danglingSweep.2 ⟨id, block, hrecord, .inr ⟨hdeg, hown, rfl⟩⟩)
  · intro h f hf
    obtain ⟨id, block, hrecord, hcase⟩ := mem_danglingSweep.1 hf
    obtain ⟨hdeg, bytes, hget⟩ := h id block hrecord
    rcases hcase with ⟨hdeg', -⟩ | ⟨-, hown, -⟩
    · cases hdeg.symm.trans hdeg'
    · cases hown.symm.trans hget

theorem foreign_nil : (walkDisk width v).foreign = [] ↔
    (∀ id d, (file v id d).isSome → accepts width id d = true) ∧ ∀ p, v.foreign.get p = none := by
  rw [List.eq_nil_iff_forall_not_mem]
  constructor
  · intro h
    constructor
    · intro id d hsome
      by_contra hnot
      exact h _ (mem_foreign.2 ⟨Bool.eq_false_iff.2 hnot, hsome⟩)
    · intro p
      rw [← not_isSome_iff_eq_none]
      exact fun hsome => h _ (mem_foreign_other.2 hsome)
  · rintro ⟨haccepts, hfamiliar⟩ path hpath
    cases path with
    | block id d =>
      obtain ⟨hnot, hsome⟩ := mem_foreign.1 hpath
      rw [haccepts id d hsome] at hnot
      cases hnot
    | other p =>
      have hsome := mem_foreign_other.1 hpath
      rw [hfamiliar p] at hsome
      cases hsome

/-- The sweep compares the depth as the record has it: it says nothing about the files of a
record whose depth no path has. -/
theorem diskSweep_nil (hown : ∀ id block, recordOf v.store id = some block → (file v id (diskDepth id block.depth)).isSome) :
    diskSweep (walkDisk width v) v.store = [] ↔ (walkDisk width v).foreign = [] ∧
      (∀ id d, (file v id d).isSome → ∃ block, recordOf v.store id = some block ∧
        (d = diskDepth id block.depth ∨ Clamped id block)) ∧
      ∀ id block bytes, recordOf v.store id = some block → file v id (diskDepth id block.depth) = some bytes →
        bytes.length = block.size ∨ Clamped id block := by
  rw [List.eq_nil_iff_forall_not_mem]
  constructor
  · intro h
    have hforeign : (walkDisk width v).foreign = [] := List.eq_nil_iff_forall_not_mem.2 fun path hpath =>
      h _ (mem_diskSweep.2 (.inr (.inr (.inr ⟨path, hpath, rfl⟩))))
    have haccepts := (foreign_nil.1 hforeign).1
    refine ⟨hforeign, fun id d hsome => ?_, fun id block bytes hrecord hget => ?_⟩
    · cases hrecord : recordOf v.store id with
      | none => exact (h _ (mem_diskSweep.2 (.inl ⟨id, d, haccepts id d hsome, hsome, hrecord, rfl⟩))).elim
      | some block =>
        refine ⟨block, rfl, or_iff_not_imp_right.2 fun hfits => ?_⟩
        have hdepth : diskDepth id block.depth = block.depth := not_not.1 hfits
        have hsome' := hown id block hrecord
        rw [hdepth] at hsome' ⊢
        by_contra hne
        exact h _ (mem_diskSweep.2 (.inr (.inl ⟨id, d, block, haccepts id d hsome, hsome, hrecord, Ne.symm hne,
          haccepts id _ hsome', hsome', rfl⟩)))
    · refine or_iff_not_imp_right.2 fun hfits => ?_
      have hdepth : diskDepth id block.depth = block.depth := not_not.1 hfits
      have hacc := haccepts id _ (isSome_of_eq_some hget)
      rw [hdepth] at hget hacc
      by_contra hne
      exact h _ (mem_diskSweep.2 (.inr (.inr (.inl ⟨id, block, bytes, hacc, hget, hrecord, Ne.symm hne, rfl⟩))))
  · rintro ⟨hforeign, hfiles, hsizes⟩ f hf
    rcases mem_diskSweep.1 hf with ⟨id, d, -, hsome, hnone, -⟩ | ⟨id, d, block, -, hsome, hrecord, hne, hacc, -, -⟩ |
      ⟨id, block, bytes, hacc, hget, hrecord, hsize, -⟩ | ⟨path, hpath, -⟩
    · obtain ⟨block, hrecord, -⟩ := hfiles id d hsome
      cases hnone.symm.trans hrecord
    · -- a path has the record's depth, so the copy would be its own file
      obtain ⟨block', hrecord', hd⟩ := hfiles id d hsome
      cases hrecord.symm.trans hrecord'
      have hdepth := diskDepth_of_accepts hacc
      have hd := hd.resolve_right (not_not.2 hdepth)
      exact hne (hdepth.symm.trans hd.symm)
    · have hdepth := diskDepth_of_accepts hacc
      rw [← hdepth] at hget
      have hlen := (hsizes id block bytes hrecord hget).resolve_right (not_not.2 hdepth)
      exact hsize hlen.symm
    · rw [hforeign] at hpath
      cases hpath

theorem multipartReport_nil : multipartReport s = some [] ↔ (∀ k, s.uploads.get k = none) ∧ ∀ k, s.parts.get k = none := by
  constructor
  · intro h
    obtain ⟨hup, hpa⟩ := multipartReport_isSome.1 (isSome_of_eq_some h)
    have hnone : ∀ f, f ∉ ([] : List Finding) := fun f => List.not_mem_nil
    have huploads : ∀ k, s.uploads.get k = none := by
      intro k
      cases hget : s.uploads.get k with
      | none => rfl
      | some cell =>
        cases cell with
        | garbage => exact (hup k hget).elim
        | record u => exact (hnone _ ((mem_multipartReport h).2 (.inl ⟨⟨k, u, hget⟩, rfl⟩))).elim
    refine ⟨huploads, fun k => ?_⟩
    cases hget : s.parts.get k with
    | none => rfl
    | some cell =>
      cases cell with
      | garbage => exact (hpa k hget).elim
      | record part =>
        have howned : ¬ Owned s part := by
          rintro ⟨k', u, hu, -⟩
          cases (huploads k').symm.trans hu
        exact (hnone _ ((mem_multipartReport h).2 (.inr ⟨⟨k, part, hget, howned⟩, rfl⟩))).elim
  · rintro ⟨hup, hpa⟩
    have hsome : (multipartReport s).isSome :=
      multipartReport_isSome.2 ⟨fun k => by rw [hup k]; exact nofun, fun k => by rw [hpa k]; exact nofun⟩
    obtain ⟨findings, hfindings⟩ := isSome_iff_exists.1 hsome
    rw [hfindings, Option.some.injEq, List.eq_nil_iff_forall_not_mem]
    intro f hf
    rcases (mem_multipartReport hfindings).1 hf with ⟨⟨k, u, hget⟩, -⟩ | ⟨⟨k, part, hget, -⟩, -⟩
    · cases (hup k).symm.trans hget
    · rw [hpa k] at hget
      cases hget

theorem bucketIntegrity_nil {findings : List Finding} (h : bucketIntegrity s = some findings) : findings = [] ↔
    ∀ t, (s.trees.get t).isSome → isReserved t = false → (s.buckets.get t).isSome := by
  rw [List.eq_nil_iff_forall_not_mem]
  constructor
  · intro hnil t hsome hres
    rw [isSome_iff_ne_none]
    exact fun hrow => hnil _ ((mem_bucketIntegrity h).2 ⟨⟨t, hsome, hres, hrow⟩, rfl⟩)
  intro hrows f hf
  obtain ⟨⟨t, hsome, hres, hrow⟩, -⟩ := (mem_bucketIntegrity h).1 hf
  have := hrows t hsome hres
  rw [hrow] at this
  cases this

end Passes

/-! ## A report without findings -/

section Report

variable {c : Config} {width : ℕ} {v : Volume} {report : Report}

/-- A metadata-only report is without findings if every pass is. -/
theorem findings_nil (h : run c width false v = some report) : report.findings = [] ↔
    recordFindings v = [] ∧ (∃ refs, walkHolders v.store = some refs ∧ recount refs v.store = []) ∧
      diskSweep (walkDisk width v) v.store = [] ∧ danglingSweep (walkDisk width v) v.store = [] ∧
      multipartReport v.store = some [] ∧ bucketIntegrity v.store = some [] := by
  unfold run at h
  obtain ⟨buckets, hb, rfl⟩ := map_eq_some_iff.1 h
  cases hholders : walkHolders v.store <;> cases huploads : multipartReport v.store <;>
    simp [hb]

theorem findings_nil_iff (hrun : run c width false v = some report) :
    report.findings = [] ↔ ConsistentBut Clamped v ∧ ObjectsDecode v.store ∧ WidthsFit width v.store := by
  rw [findings_nil hrun, recordFindings_nil, danglingSweep_nil, multipartReport_nil]
  constructor
  · rintro ⟨⟨haddressed, hdecode⟩, ⟨refs, hrefs, hrecount⟩, hsweep, hdangling, ⟨huploads, hparts⟩, hrows⟩
    obtain ⟨hcounted, hheld⟩ := recount_nil.1 hrecount
    have hown : ∀ id block, recordOf v.store id = some block → (file v id (diskDepth id block.depth)).isSome :=
      fun id block hrecord => isSome_iff_exists.2 (hdangling id block hrecord).2
    obtain ⟨hforeign, hfiles, hsizes⟩ := (diskSweep_nil hown).1 hsweep
    obtain ⟨haccepts, hfamiliar⟩ := foreign_nil.1 hforeign
    have hread := walkHolders_isSome.1 (isSome_of_eq_some hrefs)
    have hmem : ∀ id, id ∈ refs ↔ occurrences v.store id ≠ 0 := mem_refs_iff hrefs
    refine ⟨⟨?_, ?_, haddressed, fun id block hrecord => (hdangling id block hrecord).1, ?_, ?_, hfamiliar,
      (bucketIntegrity_nil hrows).1 rfl, huploads, ?_⟩, hread.1, ?_⟩
    · intro id hne
      obtain ⟨block, hrecord, hrc⟩ := hcounted id ((hmem id).2 hne)
      rw [walkHolders_eq hrefs] at hrc
      exact ⟨block, hrecord, hrc⟩
    · intro id hsome
      obtain ⟨cell, hget⟩ := isSome_iff_exists.1 hsome
      cases cell with
      | garbage => exact (hdecode id hget).elim
      | record block => exact (hmem id).1 (hheld id block (recordOf_eq_some.2 hget))
    · intro id block hrecord
      obtain ⟨bytes, hget⟩ := (hdangling id block hrecord).2
      exact ⟨bytes, hget, hsizes id block bytes hrecord hget⟩
    · intro id d hsome
      obtain ⟨block, hrecord, hd⟩ := hfiles id d hsome
      have hbounds := (accepts_iff.1 (haccepts id d hsome)).2
      exact ⟨block, hrecord, hd.imp_right fun hclamped => ⟨hclamped, hbounds⟩⟩
    · intro k cell hget
      cases (hparts k).symm.trans hget
    · exact fun id block hrecord => (accepts_iff.1 (haccepts id _ (hown id block hrecord))).1
  · rintro ⟨h, hdecode, hfit⟩
    obtain ⟨refs, hrefs⟩ := isSome_iff_exists.1 (walkHolders_isSome.2 (h.holdersRead hdecode))
    have hmem : ∀ id, id ∈ refs ↔ occurrences v.store id ≠ 0 := mem_refs_iff hrefs
    have hown : ∀ id block, recordOf v.store id = some block → (file v id (diskDepth id block.depth)).isSome := by
      intro id block hrecord
      obtain ⟨bytes, hget, -⟩ := h.sized id block hrecord
      exact isSome_of_eq_some hget
    refine ⟨⟨h.addressed, ?_⟩, ⟨refs, hrefs, recount_nil.2 ⟨?_, ?_⟩⟩, (diskSweep_nil hown).2 ⟨?_, ?_, ?_⟩, ?_,
      ⟨h.uploads, h.parts_none⟩, ?_⟩
    · intro id hget
      obtain ⟨block, hrecord, -⟩ := h.counted id (h.referenced id (isSome_of_eq_some hget))
      rw [recordOf_eq_some, hget] at hrecord
      cases hrecord
    · intro id hid
      obtain ⟨block, hrecord, hrc⟩ := h.counted id ((hmem id).1 hid)
      rw [walkHolders_eq hrefs]
      exact ⟨block, hrecord, hrc⟩
    · exact fun id block hrecord => (hmem id).2 (h.referenced id (isSome_of_eq_some (recordOf_eq_some.1 hrecord)))
    · exact foreign_nil.2 ⟨fun id d hsome => h.accepts_file hfit hsome, h.familiar⟩
    · intro id d hsome
      obtain ⟨block, hrecord, hd⟩ := h.own id d hsome
      exact ⟨block, hrecord, hd.imp_right And.left⟩
    · intro id block bytes hrecord hget
      obtain ⟨bytes', hget', hsize⟩ := h.sized id block hrecord
      cases hget.symm.trans hget'
      exact hsize
    · exact fun id block hrecord => ⟨h.intact id block hrecord, isSome_iff_exists.1 (hown id block hrecord)⟩
    · obtain ⟨buckets, hbuckets⟩ := isSome_iff_exists.1 (bucketIntegrity_isSome hrun)
      rw [hbuckets, (bucketIntegrity_nil hbuckets).2 h.rows]

end Report

/-! ## What the report misjudges -/

/-- What a metadata-only report and the store can disagree about. -/
inductive Misjudged (width : ℕ) (v : Volume) : Prop
  /-- Nothing is reported, though the file of a record has another size, or there is a second
  file: no path has the depth the record gives, and the disk sweep goes by that depth. -/
  | unseen (id : BlockId) (block : Block) : ConsistentBut Clamped v → ObjectsDecode v.store → WidthsFit width v.store →
      recordOf v.store id = some block → Clamped id block →
      ((∃ bytes, file v id (diskDepth id block.depth) = some bytes ∧ bytes.length ≠ block.size) ∨
        ∃ d, d ≠ diskDepth id block.depth ∧ (file v id d).isSome) → Misjudged width v
  /-- An object record does not decode, and it is all there is to report. -/
  | undecoded : Consistent v → ¬ ObjectsDecode v.store → Misjudged width v
  /-- A block has an address of another width, and its own file is reported as foreign. -/
  | misfit : Consistent v → ¬ WidthsFit width v.store → Misjudged width v

/-- What is left to ask of a store without findings. -/
theorem ConsistentBut.consistent {exempt : BlockId → Block → Prop} {v : Volume} (h : ConsistentBut exempt v)
    (hseen : ∀ id block, recordOf v.store id = some block → exempt id block →
      (∀ bytes, file v id (diskDepth id block.depth) = some bytes → bytes.length = block.size) ∧
        ∀ d, (file v id d).isSome → d = diskDepth id block.depth) : Consistent v where
  counted := h.counted
  referenced := h.referenced
  addressed := h.addressed
  intact := h.intact
  sized id block hrecord := by
    obtain ⟨bytes, hget, hsize⟩ := h.sized id block hrecord
    exact ⟨bytes, hget, .inl (hsize.elim (fun h => h) fun hex => (hseen id block hrecord hex).1 bytes hget)⟩
  own id d hsome := by
    obtain ⟨block, hrecord, hd⟩ := h.own id d hsome
    exact ⟨block, hrecord, .inl (hd.elim (fun h => h) fun hex => (hseen id block hrecord hex.1).2 d hsome)⟩
  familiar := h.familiar
  rows := h.rows
  uploads := h.uploads
  parts := h.parts

theorem Misjudged.of_unseen {width : ℕ} {v : Volume} (h : ConsistentBut Clamped v) (hdecode : ObjectsDecode v.store)
    (hfit : WidthsFit width v.store) (hnot : ¬ Consistent v) : Misjudged width v := by
  by_contra hfair
  refine hnot (h.consistent fun id block hrecord hclamped => ⟨fun bytes hget => ?_, fun d hsome => ?_⟩)
  · by_contra hsize
    exact hfair (.unseen id block h hdecode hfit hrecord hclamped (.inl ⟨bytes, hget, hsize⟩))
  · by_contra hne
    exact hfair (.unseen id block h hdecode hfit hrecord hclamped (.inr ⟨d, hne, hsome⟩))

/-- **A metadata-only report has no findings exactly for consistent stores**, unless it misjudges
the store. -/
theorem report_clean_iff (c : Config) (width : ℕ) (v : Volume) (report : Report) (hrun : run c width false v = some report) :
    (report.findings = [] ↔ Consistent v) ↔ ¬ Misjudged width v := by
  rw [findings_nil_iff hrun]
  constructor
  · rintro hiff (⟨id, block, h, hdecode, hfit, hrecord, hclamped, hwrong⟩ | ⟨h, hdecode⟩ | ⟨h, hfit⟩)
    · have hcons := hiff.1 ⟨h, hdecode, hfit⟩
      rcases hwrong with ⟨bytes, hget, hsize⟩ | ⟨d, hne, hsome⟩
      · obtain ⟨bytes', hget', hsize'⟩ := hcons.sized id block hrecord
        cases hget.symm.trans hget'
        exact hsize (hsize'.resolve_right fun h => h)
      · obtain ⟨block', hrecord', hd⟩ := hcons.own id d hsome
        cases hrecord.symm.trans hrecord'
        exact hne (hd.resolve_right And.left)
    · exact hdecode (hiff.2 h).2.1
    · exact hfit (hiff.2 h).2.2
  · intro hfair
    constructor
    · rintro ⟨h, hdecode, hfit⟩
      by_contra hnot
      exact hfair (.of_unseen h hdecode hfit hnot)
    intro h
    refine ⟨h.mono Clamped, ?_, ?_⟩
    · by_contra hdecode
      exact hfair (.undecoded h hdecode)
    · by_contra hfit
      exact hfair (.misfit h hfit)

/-- The record of the example counts its one holder and has the file's size and depth. -/
theorem report_clean_abc :
    ∃ report, run abcConfig 32 false (abcVolume (OrdMap.insert ∅ abcId (.record ⟨3, 1, 1, false, 0⟩))) =
      some report ∧ report.findings = [] ∧ Consistent (abcVolume (OrdMap.insert ∅ abcId (.record ⟨3, 1, 1, false, 0⟩))) ∧
    ¬ Misjudged 32 (abcVolume (OrdMap.insert ∅ abcId (.record ⟨3, 1, 1, false, 0⟩))) := by
  have hrun : (run abcConfig 32 false (abcVolume (OrdMap.insert ∅ abcId (.record ⟨3, 1, 1, false, 0⟩)))).map Report.findings =
      some [] := by decide +kernel
  obtain ⟨report, hrun, hnil⟩ := map_eq_some_iff.1 hrun
  have hcons : Consistent (abcVolume (OrdMap.insert ∅ abcId (.record ⟨3, 1, 1, false, 0⟩))) := by
    refine ((findings_nil_iff hrun).1 hnil).1.consistent fun id block hrecord hclamped => ?_
    have hfits : ∀ r ∈ walkRecords (abcVolume (OrdMap.insert ∅ abcId (.record ⟨3, 1, 1, false, 0⟩))).store,
        diskDepth r.1 r.2.depth = r.2.depth := by decide +kernel
    exact (hclamped (hfits (id, block) (mem_walkRecords.2 hrecord))).elim
  exact ⟨report, hrun, hnil, hcons, (report_clean_iff _ _ _ _ hrun).1 (iff_of_true hnil hcons)⟩

/-- The record names five bytes at depth 0, the file at depth 1 has three. -/
theorem wrong_size_unseen : ∃ report,
    run abcConfig 32 false (abcVolume (OrdMap.insert ∅ abcId (.record ⟨5, 0, 1, false, 0⟩))) = some report ∧
      report.findings = [] ∧ ¬ Consistent (abcVolume (OrdMap.insert ∅ abcId (.record ⟨5, 0, 1, false, 0⟩))) := by
  have hrun : (run abcConfig 32 false (abcVolume (OrdMap.insert ∅ abcId (.record ⟨5, 0, 1, false, 0⟩)))).map Report.findings =
      some [] := by decide +kernel
  obtain ⟨report, hrun, hnil⟩ := map_eq_some_iff.1 hrun
  refine ⟨report, hrun, hnil, fun hcons => ?_⟩
  obtain ⟨bytes, hget, hsize⟩ := hcons.sized abcId ⟨5, 0, 1, false, 0⟩ (by decide +kernel)
  have hfile : file (abcVolume (OrdMap.insert ∅ abcId (.record ⟨5, 0, 1, false, 0⟩))) abcId (diskDepth abcId 0) = some abc := by
    decide +kernel
  cases hfile.symm.trans hget
  exact absurd (hsize.resolve_right fun h => h) (by decide)

end QssStorage.Scrub
