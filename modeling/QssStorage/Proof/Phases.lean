import QssStorage.Proof.Plan

/-!
# The second round of a repair, phase by phase

Corrupt files are set aside, copies adopted, counts set, records flagged, unreferenced files
deleted and foreign ones set aside. All of it is planned on one volume, while each phase
acts on what the ones before it left.

* `Mended`, `Phases.recordOf_eq`: what they make of a block record.
-/

namespace QssStorage.Scrub

variable {id : BlockId} {block : Block} {v : Volume} {d : ℕ}

section Adoptions

variable {c : Config} {width : ℕ} {scrub : Bool} {v1 vA vB : Volume}

/-- The candidates of an adoption. -/
abbrev candidates (width : ℕ) (v : Volume) (id : BlockId) (block : Block) : List ℕ :=
  elsewhere (walkDisk width v) id block.depth

/-- The adoptions planned on `v1` unlink this file of `vA`. -/
def OvertakenIn (c : Config) (width : ℕ) (v1 vA : Volume) (id : BlockId) (d : ℕ) : Prop :=
  ∃ block, Adoptable width v1 id block ∧ Overtaken c id (file vA id) (candidates width v1 id block) d

/-- They set it aside. -/
def PassedOverIn (c : Config) (width : ℕ) (v1 vA : Volume) (id : BlockId) (d : ℕ) : Prop :=
  ∃ block, Adoptable width v1 id block ∧ PassedOver c id (file vA id) (candidates width v1 id block) d

/-- The record they leave: at the depth of the adopted copy, flagged if there is none. -/
def Settled (c : Config) (width : ℕ) (v1 vA : Volume) (id : BlockId) (r : Option Block) : Prop :=
  ∀ block, Adoptable width v1 id block → (∀ d, Adopted c id (file vA id) (candidates width v1 id block) d →
      r = (recordOf vA.store id).map fun b => { b with depth := d }) ∧
    ((∀ d, ¬ Adopted c id (file vA id) (candidates width v1 id block) d) → r = (recordOf vA.store id).map degrade)

theorem Adoptable.unique {block block' : Block} (h : Adoptable width v id block)
    (h' : Adoptable width v id block') : block = block' := Option.some.inj (h.1.symm.trans h'.1)

/-- Without an adopted candidate no candidate is good. -/
theorem not_good_of_not_adopted {f : ℕ → Option Bytes} {ds : List ℕ}
    (h : ∀ d, ¬ Adopted c id f ds d) : ∀ d ∈ ds, ¬ Good c id f d := by
  intro d
  induction d using Nat.strong_induction_on with
  | _ d ih =>
    intro hd hgood
    exact h d ⟨hd, hgood, fun d' hd' hlt => ih d' hlt hd'⟩

theorem eq_degrade {r : Option Block} (h : Flagged (some block) r)
    (hflag : ∀ b, r = some b → b.degraded = true) : r = some (degrade block) := by
  obtain ⟨flag, rfl⟩ := h.some
  obtain rfl : flag = true := hflag _ rfl
  rfl

/-- The corrupt files of `v1` are set aside, and their records flagged. -/
structure Cleared (c : Config) (width : ℕ) (scrub : Bool) (v1 vA : Volume) : Prop
    extends Sweeps (fun _ _ => False) (fun id d => SetAside c width scrub id (file v1 id) d) v1 vA where
  records : Degrades (fun id => ∃ d, SetAside c width scrub id (file v1 id) d) v1 vA

/-- Good copies outlive the first phase. -/
theorem good_after_corrupt (hA : Cleared c width scrub v1 vA) :
    Good c id (file vA id) d ↔ Good c id (file v1 id) d := by
  constructor
  · rintro ⟨bytes, hf, hhash⟩
    exact ⟨bytes, (hA.shrinks hf).1, hhash⟩
  · intro hgood
    exact (good_congr (hA.stays id d not_false (fun h => hgood.not_bad h.2.2))).2 hgood

theorem not_setAside_of_file (hA : Cleared c width scrub v1 vA)
    {bytes : Bytes} (hf : file vA id d = some bytes) : ¬ SetAside c width scrub id (file v1 id) d := (hA.shrinks hf).2.2

/-- A candidate is still there, or the corrupt files included it. -/
theorem candidate_seen (hA : Cleared c width scrub v1 vA)
    (hadopt : Adoptable width v1 id block) :
    (∃ d ∈ candidates width v1 id block, (file vA id d).isSome) ∨ IsDegraded vA id := by
  obtain ⟨d, hd⟩ := List.exists_mem_of_ne_nil _ hadopt.2.2.2
  by_cases haside : SetAside c width scrub id (file v1 id) d
  · right
    intro b hb
    rw [(hA.records id).1 ⟨d, haside⟩] at hb
    obtain ⟨_, -, rfl⟩ := Option.map_eq_some_iff.1 hb
    rfl
  · refine .inl ⟨d, hd, ?_⟩
    rw [hA.stays id d not_false haside]
    exact (mem_elsewhere.1 hd).2.1

theorem adoption_step (c : Config) (hA : Cleared c width scrub v1 vA)
    (hadopt : Adoptable width v1 id block) (hv : slice v id = slice vA id) :
    Tends id (OvertakenIn c width v1 vA id) (PassedOverIn c width v1 vA id) v
        (adoptOrphan c id (candidates width v1 id block) v) ∧
      Settled c width v1 vA id (recordOf (adoptOrphan c id (candidates width v1 id block) v).store id) := by
  have ⟨hrecord, _, hown, _⟩ := hadopt
  -- what the action reads is what the plan read, but for the flag
  have hfile : file v id = file vA id := file_of_slice hv
  have hrecordA : recordOf v.store id = recordOf vA.store id := recordOf_of_slice hv
  obtain ⟨flag, hflagged⟩ : ∃ flag, recordOf vA.store id = some { block with degraded := flag } := by
    have h := hA.records.flagged id
    rw [hrecord] at h
    exact h.some
  rw [hflagged] at hrecordA
  have hown' : isFile v.store id block.depth = false := by
    rw [isFile_eq_false, hfile]
    exact hA.none_of_none hown
  have hdisk : ∀ d ∈ candidates width v1 id block, diskDepth id d = d := fun d hd =>
    diskDepth_of_accepts (mem_elsewhere.1 hd).1
  have hsorted : (candidates width v1 id block).Pairwise (· < ·) := elsewhere_sorted id block.depth
  obtain ⟨ht, hadopted, hunadopted⟩ := adoptOrphan_tends c hrecordA hown' hsorted hdisk
  rw [hfile] at ht hadopted hunadopted
  refine ⟨ht.congr ?_ ?_, ?_⟩
  · intro d
    exact ⟨fun h => ⟨block, hadopt, h⟩, fun ⟨block', h', h⟩ => hadopt.unique h' ▸ h⟩
  · intro d
    exact ⟨fun h => ⟨block, hadopt, h⟩, fun ⟨block', h', h⟩ => hadopt.unique h' ▸ h⟩
  intro block' h'
  obtain rfl := hadopt.unique h'
  rw [hflagged]
  refine ⟨fun d hd => hadopted d hd, fun hno => eq_degrade (hunadopted hno) ?_⟩
  have hbad : ∀ d ∈ candidates width v1 id block, ¬ Good c id (file v id) d := by
    rw [hfile]
    exact not_good_of_not_adopted hno
  have hseen : (∃ d ∈ candidates width v1 id block, (file v id d).isSome) ∨ IsDegraded v id := by
    have h := candidate_seen hA hadopt
    unfold IsDegraded at h ⊢
    rwa [hfile, recordOf_of_slice hv]
  have hdegraded := adoptFrom_degrades c id { block with degraded := flag } _ false v hsorted hdisk hbad (.inr hseen)
  unfold adoptOrphan
  rw [hrecordA]
  simp only [hown', Bool.false_eq_true, if_false]
  exact hdegraded

/-- The adoptions, made on a volume whose corrupt files were set aside. -/
theorem applyAll_adoptions (c : Config) (hA : Cleared c width scrub v1 vA)
    (hvB : vB = applyAll c (planAdoptions (walkDisk width v1) v1.store) vA) :
    Sweeps (OvertakenIn c width v1 vA) (PassedOverIn c width v1 vA) vA vB ∧
      (∀ id, Settled c width v1 vA id (recordOf vB.store id)) ∧
      (∀ id, (∀ block, ¬ Adoptable width v1 id block) → slice vB id = slice vA id) ∧ Framed vA vB := by
  have hmem : ∀ id, some id ∈ (planAdoptions (walkDisk width v1) v1.store).map RepairAction.block ↔
      ∃ block, Adoptable width v1 id block := by
    intro id
    rw [List.mem_map]
    constructor
    · rintro ⟨a, ha, hid⟩
      obtain ⟨id', block, hadopt, rfl⟩ := mem_planAdoptions.1 ha
      cases hid
      exact ⟨block, hadopt⟩
    · rintro ⟨block, hadopt⟩
      exact ⟨_, mem_planAdoptions.2 ⟨id, block, hadopt, rfl⟩, rfl⟩
  have hstep : ∀ a ∈ planAdoptions (walkDisk width v1) v1.store, ∃ id, a.block = some id ∧ slice vA id = slice vA id ∧
      ∀ v, slice v id = slice vA id →
        Tends id (OvertakenIn c width v1 vA id) (PassedOverIn c width v1 vA id) v (a.apply c v) ∧
          Settled c width v1 vA id (recordOf (a.apply c v).store id) := by
    intro a ha
    obtain ⟨id, block, hadopt, rfl⟩ := mem_planAdoptions.1 ha
    exact ⟨id, rfl, rfl, fun v hv => adoption_step c hA hadopt hv⟩
  obtain ⟨hsweeps, hsettled, hother, hframed⟩ := applyAll_distinct c _ vA hstep (planAdoptions_distinct _ _)
  rw [← hvB] at hsweeps hsettled hother hframed
  refine ⟨hsweeps.congr ?_ ?_, ?_, ?_, hframed⟩
  · intro id d
    rw [hmem]
    exact and_iff_right_of_imp fun ⟨block, h, _⟩ => ⟨block, h⟩
  · intro id d
    rw [hmem]
    exact and_iff_right_of_imp fun ⟨block, h, _⟩ => ⟨block, h⟩
  · intro id block hadopt
    exact hsettled id ((hmem id).2 ⟨block, hadopt⟩) block hadopt
  · intro id hno
    refine hother id fun h => ?_
    obtain ⟨block, hadopt⟩ := (hmem id).1 h
    exact hno block hadopt

/-- A block without a file of its own has all its files among the candidates. -/
theorem mem_candidates (hown : file v id (diskDepth id block.depth) = none) :
    d ∈ candidates width v id block ↔ accepts width id d = true ∧ (file v id d).isSome := by
  rw [mem_elsewhere]
  refine and_congr_right fun haccepts => and_iff_left_of_imp ?_
  rintro hsome rfl
  rw [diskDepth_of_accepts haccepts] at hown
  rw [hown] at hsome
  cases hsome

/-- The copy an adoption planned on `v` takes. -/
def Lands (c : Config) (width : ℕ) (v : Volume) (id : BlockId) (block : Block) (d : ℕ) : Prop :=
  block.degraded = false ∧ file v id (diskDepth id block.depth) = none ∧ accepts width id d = true ∧
    Good c id (file v id) d ∧ ∀ d' < d, accepts width id d' = true → ¬ Good c id (file v id) d'

theorem Lands.adoptable (hrecord : recordOf v.store id = some block)
    (h : Lands c width v id block d) : Adoptable width v id block := by
  obtain ⟨hflag, hown, haccepts, ⟨bytes, hf, -⟩, -⟩ := h
  have hd : d ∈ candidates width v id block := (mem_candidates hown).2 ⟨haccepts, by rw [hf]; rfl⟩
  exact ⟨hrecord, hflag, hown, List.ne_nil_of_mem hd⟩

theorem Lands.unique {d d' : ℕ} (h : Lands c width v id block d)
    (h' : Lands c width v id block d') : d = d' := by
  rcases Nat.lt_trichotomy d d' with hlt | heq | hgt
  · exact (h'.2.2.2.2 d hlt h.2.2.1 h.2.2.2.1).elim
  · exact heq
  · exact (h.2.2.2.2 d' hgt h'.2.2.1 h'.2.2.2.1).elim

theorem lands_iff_adopted (hA : Cleared c width scrub v1 vA)
    (hadopt : Adoptable width v1 id block) :
    Lands c width v1 id block d ↔ Adopted c id (file vA id) (candidates width v1 id block) d := by
  obtain ⟨-, hflag, hown, -⟩ := hadopt
  have hgood : ∀ d, Good c id (file vA id) d ↔ Good c id (file v1 id) d := fun d => good_after_corrupt hA
  constructor
  · rintro ⟨-, -, haccepts, hg, hfirst⟩
    refine ⟨(mem_candidates hown).2 ⟨haccepts, ?_⟩, (hgood d).2 hg, ?_⟩
    · obtain ⟨bytes, hf, -⟩ := hg
      rw [hf]; rfl
    · exact fun d' hd' hlt hg' => hfirst d' hlt ((mem_candidates hown).1 hd').1 ((hgood d').1 hg')
  rintro ⟨hd, hg, hfirst⟩
  refine ⟨hflag, hown, ((mem_candidates hown).1 hd).1, (hgood d).1 hg, ?_⟩
  intro d' hlt haccepts hg'
  have hd' : d' ∈ candidates width v1 id block := by
    obtain ⟨bytes, hf, -⟩ := hg'
    exact (mem_candidates hown).2 ⟨haccepts, by rw [hf]; rfl⟩
  exact hfirst d' hd' hlt ((hgood d').2 hg')

end Adoptions

/-! ## The recount -/

/-- What a recount makes of the record of `id`; nothing changes if none is authorised. -/
def recountedBy (expected : Option (BlockId → ℕ)) (id : BlockId) (block : Block) : Option Block :=
  match expected with
  | none => some block
  | some holders => recounted (holders id) block

/-- A recount was authorised and finds that nothing holds the block. -/
def Unheld (expected : Option (BlockId → ℕ)) (id : BlockId) : Prop := ∃ holders, expected = some holders ∧ holders id = 0

/-- What the recount of a repair unlinks from `vB`. -/
def Unlinked (expected : Option (BlockId → ℕ)) (vB : Volume) (id : BlockId) (d : ℕ) : Prop :=
  Unheld expected id ∧ ∃ record, recordOf vB.store id = some record ∧ record.rc ≠ 0 ∧ d = diskDepth id record.depth

/-- The recount actions of a repair. -/
def recountActions (expected : Option (BlockId → ℕ)) (s : Store) : List RepairAction :=
  match expected with
  | none => []
  | some holders => planRecount holders s

/-- The recount planned on the counts of `s`, which `vB` still has. -/
theorem applyAll_recount (c : Config) (expected : Option (BlockId → ℕ)) {s : Store} {vB : Volume}
    (hrc : ∀ id, (recordOf vB.store id).map Block.rc = (recordOf s id).map Block.rc) :
    Sweeps (Unlinked expected vB) (fun _ _ => False) vB (applyAll c (recountActions expected s) vB) ∧
      (∀ id, recordOf (applyAll c (recountActions expected s) vB).store id =
        (recordOf vB.store id).bind (recountedBy expected id)) ∧
      Framed vB (applyAll c (recountActions expected s) vB) := by
  cases expected with
  | none =>
    refine ⟨(Sweeps.refl vB).congr (fun id d => ⟨False.elim, ?_⟩) fun _ _ => Iff.rfl, fun id => ?_, .refl vB⟩
    · rintro ⟨⟨_, h, -⟩, -⟩
      cases h
    · exact (Option.bind_fun_some _).symm
  | some holders =>
    have hmem : ∀ id, some id ∈ (planRecount holders s).map RepairAction.block ↔
        ∃ block, recordOf s id = some block ∧ block.rc ≠ holders id := by
      intro id
      rw [List.mem_map]
      constructor
      · rintro ⟨a, ha, hid⟩
        obtain ⟨id', block, hrecord, hne, rfl⟩ := mem_planRecount.1 ha
        cases hid
        exact ⟨block, hrecord, hne⟩
      · rintro ⟨block, hrecord, hne⟩
        exact ⟨_, mem_planRecount.2 ⟨id, block, hrecord, hne, rfl⟩, rfl⟩
    have hstep : ∀ a ∈ planRecount holders s, ∃ id, a.block = some id ∧ slice vB id = slice vB id ∧
        ∀ v, slice v id = slice vB id → Tends id (Unlinked (some holders) vB id) (fun _ => False) v (a.apply c v) ∧
            recordOf (a.apply c v).store id = (recordOf vB.store id).bind (recounted (holders id)) := by
      intro a ha
      obtain ⟨id, block, -, -, rfl⟩ := mem_planRecount.1 ha
      refine ⟨id, rfl, rfl, fun v hv => ⟨?_, ?_⟩⟩
      · have ht := setRc_tends id (holders id) v
        rw [recordOf_of_slice hv] at ht
        refine ht.congr (fun d => and_congr_left fun _ => ?_) fun _ => Iff.rfl
        exact ⟨fun h => ⟨holders, rfl, h⟩, fun ⟨_, h, h'⟩ => by cases h; exact h'⟩
      · rw [← recordOf_of_slice hv]
        exact recordOf_setRc id (holders id) v
    obtain ⟨hsweeps, hrecords, hother, hframed⟩ :=
      applyAll_distinct c (R := fun id r => r = (recordOf vB.store id).bind (recounted (holders id))) _ vB hstep
        (planRecount_distinct _ _)
    -- a record that was not planned for has its count right already
    have hright : ∀ id, some id ∉ (planRecount holders s).map RepairAction.block → ∀ record,
        recordOf vB.store id = some record → record.rc = holders id := by
      intro id hid record hrecord
      have hsame := hrc id
      rw [hrecord] at hsame
      obtain ⟨block, hblock, heq⟩ := Option.map_eq_some_iff.1 hsame.symm
      by_contra hne
      exact hid ((hmem id).2 ⟨block, hblock, fun h => hne (heq ▸ h)⟩)
    refine ⟨hsweeps.congr (fun id d => ?_) (fun _ _ => by simp), fun id => ?_, hframed⟩
    · refine and_iff_right_of_imp ?_
      rintro ⟨⟨_, h, hzero⟩, record, hrecord, hne, -⟩
      cases h
      by_contra hid
      exact hne ((hright id hid record hrecord).trans hzero)
    by_cases hid : some id ∈ (planRecount holders s).map RepairAction.block
    · exact hrecords id hid
    have hsame : recordOf (applyAll c (planRecount holders s) vB).store id = recordOf vB.store id :=
      recordOf_of_slice (hother id hid)
    refine hsame.trans ?_
    cases hrecord : recordOf vB.store id with
    | none => rfl
    | some record => exact (if_pos (hright id hid record hrecord)).symm

/-! ## All phases -/

/-- A record without a file anywhere. -/
def Bare (width : ℕ) (v : Volume) (id : BlockId) : Prop :=
  ∃ block, recordOf v.store id = some block ∧ block.degraded = false ∧ file v id (diskDepth id block.depth) = none ∧
    candidates width v id block = []

/-- What the deletions of a repair unlink. -/
def Deleted (width : ℕ) (v1 : Volume) (id : BlockId) (d : ℕ) : Prop :=
  accepts width id d = true ∧ (file v1 id d).isSome ∧ (recordOf v1.store id = none ∨
    ∃ block, recordOf v1.store id = some block ∧ block.depth ≠ d ∧ accepts width id block.depth = true ∧
      (file v1 id block.depth).isSome)

/-- A second round on `v1`, phase by phase. -/
structure Phases (c : Config) (width : ℕ) (scrub : Bool) (expected : Option (BlockId → ℕ))
    (v1 vA vB vC vD vE v' : Volume) : Prop where
  corrupt : Cleared c width scrub v1 vA
  adopt : Sweeps (OvertakenIn c width v1 vA) (PassedOverIn c width v1 vA) vA vB
  adopt_records : ∀ id, Settled c width v1 vA id (recordOf vB.store id)
  adopt_other : ∀ id, (∀ block, ¬ Adoptable width v1 id block) → slice vB id = slice vA id
  count : Sweeps (Unlinked expected vB) (fun _ _ => False) vB vC
  count_records : ∀ id, recordOf vC.store id = (recordOf vB.store id).bind (recountedBy expected id)
  flag : Sweeps (fun _ _ => False) (fun _ _ => False) vC vD
  flag_records : Degrades (Bare width v1) vC vD
  delete : Sweeps (Deleted width v1) (fun _ _ => False) vD vE
  delete_records : vE.store.blocks = vD.store.blocks
  expel : Expels (fun path => path ∈ (walkDisk width v1).foreign) vE v'
  framed : Framed v1 vE
  legible : Legible v1 v'

theorem mem_planDegradings {width : ℕ} {a : RepairAction} :
    a ∈ planDegradings (walkDisk width v) v.store ↔ ∃ id, a = .markDegraded id ∧ Bare width v id := by
  unfold planDegradings
  rw [List.mem_filterMap]
  constructor
  · rintro ⟨⟨id, block⟩, hr, ha⟩
    split_ifs at ha with hbare hempty
    simp only [Bool.or_eq_true, not_or, Bool.not_eq_true] at hbare
    cases ha
    exact ⟨id, rfl, block, mem_walkRecords.1 hr, hbare.1, isFile_eq_false.1 hbare.2, List.isEmpty_iff.1 hempty⟩
  · rintro ⟨id, rfl, block, hrecord, hflag, hown, hempty⟩
    refine ⟨(id, block), mem_walkRecords.2 hrecord, ?_⟩
    simp only [hflag, isFile_eq_false.2 hown, Bool.or_self, Bool.false_eq_true, if_false, List.isEmpty_iff]
    exact if_pos hempty

/-- Adoptions leave the counts of all records alone. -/
theorem rc_after_adoptions {c : Config} {width : ℕ} {scrub : Bool} {v1 vA vB : Volume} (hA : Cleared c width scrub v1 vA)
    (hsettled : ∀ id, Settled c width v1 vA id (recordOf vB.store id))
    (hother : ∀ id, (∀ block, ¬ Adoptable width v1 id block) → slice vB id = slice vA id) (id : BlockId) :
    (recordOf vB.store id).map Block.rc = (recordOf v1.store id).map Block.rc := by
  have hsame : (recordOf vA.store id).map Block.rc = (recordOf v1.store id).map Block.rc := by
    by_cases hD : ∃ d, SetAside c width scrub id (file v1 id) d
    · rw [(hA.records id).1 hD, Option.map_map]; rfl
    · rw [(hA.records id).2 hD]
  rw [← hsame]
  by_cases hadopt : ∃ block, Adoptable width v1 id block
  · obtain ⟨block, hadopt⟩ := hadopt
    by_cases hd : ∃ d, Adopted c id (file vA id) (candidates width v1 id block) d
    · obtain ⟨d, hd⟩ := hd
      rw [(hsettled id block hadopt).1 d hd, Option.map_map]; rfl
    · rw [(hsettled id block hadopt).2 fun d h => hd ⟨d, h⟩, Option.map_map]; rfl
  · rw [recordOf_of_slice (hother id fun block h => hadopt ⟨block, h⟩)]

theorem planRepairs_onBlocks {width : ℕ} {report : Report} {v1 : Volume} {actions : List RepairAction}
    (h : planRepairs width report v1 = some actions) : ∀ a ∈ actions, a.OnBlocks := by
  have hcorrupt : ∀ a ∈ planCorrupt report (walkDisk width v1), a.OnBlocks := by
    intro a ha
    obtain ⟨f, -, hf⟩ := List.mem_filterMap.1 ha
    split at hf
    · split_ifs at hf
      cases hf
      trivial
    · cases hf
  have hdeletions : ∀ a ∈ planDeletions (walkDisk width v1) v1.store, a.OnBlocks := by
    intro a ha
    obtain ⟨_, _, rfl | rfl⟩ := planDeletions_cases ha <;> trivial
  have hplan : ∀ recount, (∀ a ∈ recount, a.OnBlocks) → ∀ a ∈ planCorrupt report (walkDisk width v1) ++
      planAdoptions (walkDisk width v1) v1.store ++ recount ++ planDegradings (walkDisk width v1) v1.store ++
      planDeletions (walkDisk width v1) v1.store ++ (walkDisk width v1).foreign.map .quarantineForeign, a.OnBlocks := by
    intro recount hrecount a ha
    simp only [List.mem_append] at ha
    rcases ha with ((((ha | ha) | ha) | ha) | ha) | ha
    · exact hcorrupt a ha
    · obtain ⟨_, _, -, rfl⟩ := mem_planAdoptions.1 ha
      trivial
    · exact hrecount a ha
    · obtain ⟨_, rfl, -⟩ := mem_planDegradings.1 ha
      trivial
    · exact hdeletions a ha
    · obtain ⟨_, -, rfl⟩ := List.mem_map.1 ha
      trivial
  unfold planRepairs at h
  dsimp only at h
  split at h
  · obtain ⟨holders, -, rfl⟩ := Option.map_eq_some_iff.1 h
    refine hplan _ fun a ha => ?_
    obtain ⟨_, _, -, -, rfl⟩ := mem_planRecount.1 ha
    trivial
  · cases h
    exact hplan [] fun a ha => by cases ha

/-- The counts a repair sets, if the report authorised a recount. -/
def targets (report : Report) (s : Store) : Option (BlockId → ℕ) := if report.ran .recount then expectedCounts s else none

/-- **The second round of a repair**: its plan is carried out phase by phase. -/
theorem planRepairs_phases {c : Config} {width : ℕ} {scrub : Bool} {v v1 : Volume} {report : Report}
    (hrun : run c width scrub v = some report)
    (hshrinks : ∀ id d bytes, file v1 id d = some bytes → file v id d = some bytes)
    (hread : report.ran .recount = true → (expectedCounts v1.store).isSome) :
    ∃ actions vA vB vC vD vE, planRepairs width report v1 = some actions ∧
      Phases c width scrub (targets report v1.store) v1 vA vB vC vD vE (applyAll c actions v1) := by
  have hplan : planRepairs width report v1 = some (planCorrupt report (walkDisk width v1) ++
      planAdoptions (walkDisk width v1) v1.store ++ recountActions (targets report v1.store) v1.store ++
      planDegradings (walkDisk width v1) v1.store ++ planDeletions (walkDisk width v1) v1.store ++
      (walkDisk width v1).foreign.map .quarantineForeign) := by
    unfold planRepairs targets
    by_cases hran : report.ran .recount = true
    · obtain ⟨holders, hholders⟩ := Option.isSome_iff_exists.1 (hread hran)
      simp only [hran, if_true, hholders, Option.map_some, recountActions]
    · simp only [hran, Bool.false_eq_true, if_false, recountActions]
  have hcorrupt := fun a => mem_planCorrupt (a := a) hrun hshrinks
  obtain ⟨hA, hflag, hframedA⟩ := applyAll_corrupt c (planCorrupt report (walkDisk width v1)) v1 fun a ha => by
    obtain ⟨id, d, h, -⟩ := (hcorrupt a).1 ha
    exact ⟨id, d, h⟩
  have haside : ∀ id d, .quarantineCorrupt id d ∈ planCorrupt report (walkDisk width v1) ↔
      SetAside c width scrub id (file v1 id) d := by
    intro id d
    rw [hcorrupt]
    constructor
    · rintro ⟨id', d', h, haside⟩
      cases h
      exact haside
    · exact fun haside => ⟨id, d, rfl, haside⟩
  set vA := applyAll c (planCorrupt report (walkDisk width v1)) v1 with hvA
  have hcleared : Cleared c width scrub v1 vA :=
    ⟨hA.congr (fun _ _ => Iff.rfl) haside, hflag.congr fun id => exists_congr (haside id)⟩
  obtain ⟨hB, hsettled, hother, hframedB⟩ := applyAll_adoptions c hcleared rfl
  set vB := applyAll c (planAdoptions (walkDisk width v1) v1.store) vA with hvB
  obtain ⟨hC, hcounted, hframedC⟩ := applyAll_recount c (targets report v1.store) (rc_after_adoptions hcleared hsettled hother)
  set vC := applyAll c (recountActions (targets report v1.store) v1.store) vB with hvC
  obtain ⟨hD, hdegraded, hframedD⟩ := applyAll_degradings c (planDegradings (walkDisk width v1) v1.store) vC fun a ha => by
    obtain ⟨id, h, -⟩ := mem_planDegradings.1 ha
    exact ⟨id, h⟩
  set vD := applyAll c (planDegradings (walkDisk width v1) v1.store) vC with hvD
  replace hdegraded := hdegraded.congr fun id => mem_planDegradings.trans ⟨fun ⟨_, h, hb⟩ => by cases h; exact hb, fun hb => ⟨id, rfl, hb⟩⟩
  obtain ⟨hE, hblocks, hframedE⟩ := applyAll_deletions c (planDeletions (walkDisk width v1) v1.store) vD fun a ha =>
    planDeletions_cases ha
  set vE := applyAll c (planDeletions (walkDisk width v1) v1.store) vD with hvE
  have happly : ∀ actions, planRepairs width report v1 = some actions →
      applyAll c actions v1 = applyAll c ((walkDisk width v1).foreign.map .quarantineForeign) vE := by
    intro actions h
    cases hplan.symm.trans h
    rw [applyAll_append, applyAll_append, applyAll_append, applyAll_append, applyAll_append, ← hvA, ← hvB, ← hvC, ← hvD, ← hvE]
  refine ⟨_, vA, vB, vC, vD, vE, hplan, hcleared, hB, hsettled, hother, hC, hcounted, hD, hdegraded,
    hE.congr (fun _ _ => mem_planDeletions) fun _ _ => Iff.rfl, hblocks, ?_, ?_, ?_⟩
  · rw [happly _ hplan]
    exact applyAll_foreign c _ vE
  · exact (((hframedA.trans hframedB).trans hframedC).trans hframedD).trans hframedE
  · exact legible_applyAll c _ v1 (planRepairs_onBlocks hplan)

/-! ## What becomes of a record -/

/-- The record `block` of `id` after a second round on `v1`, its count apart. -/
structure Mended (c : Config) (width : ℕ) (scrub : Bool) (v1 : Volume) (id : BlockId) (block block' : Block) : Prop where
  same : block' = { block with depth := block'.depth, degraded := block'.degraded }
  lands : ∀ d, Lands c width v1 id block d → block'.depth = d
  stays : (∀ d, ¬ Lands c width v1 id block d) → block'.depth = block.depth
  flag : block'.degraded = true ↔ block.degraded = true ∨ (∃ d, SetAside c width scrub id (file v1 id) d) ∨
    (file v1 id (diskDepth id block.depth) = none ∧ ∀ d, ¬ Lands c width v1 id block d)

theorem recounted_degrade (n : ℕ) (block : Block) : recounted n (degrade block) = (recounted n block).map degrade := by
  unfold recounted
  have hrc : (degrade block).rc = block.rc := rfl
  rw [hrc]
  split
  · rfl
  · split <;> rfl

theorem recountedBy_degrade (expected : Option (BlockId → ℕ)) (id : BlockId) (block : Block) :
    recountedBy expected id (degrade block) = (recountedBy expected id block).map degrade := by
  cases expected with
  | none => rfl
  | some holders => exact recounted_degrade _ block

section Phases

variable {c : Config} {width : ℕ} {scrub : Bool} {expected : Option (BlockId → ℕ)} {v1 vA vB vC vD vE v' : Volume}
  (h : Phases c width scrub expected v1 vA vB vC vD vE v')
include h

/-- The records the phases leave are those of the recount, flagged where there was no file. -/
theorem Phases.recordOf_last (id : BlockId) : (Bare width v1 id →
      recordOf v'.store id = ((recordOf vB.store id).bind (recountedBy expected id)).map degrade) ∧
    (¬ Bare width v1 id → recordOf v'.store id = (recordOf vB.store id).bind (recountedBy expected id)) := by
  have hD : recordOf v'.store id = recordOf vD.store id := by
    refine recordOf_congr ?_
    rw [h.expel.store, h.delete_records]
  rw [hD, ← h.count_records]
  exact h.flag_records id

/-- The record after the corrupt files were set aside. -/
theorem Phases.recordOf_corrupt (hrecord : recordOf v1.store id = some block) :
    ∃ flag, recordOf vA.store id = some { block with degraded := flag } ∧
      (flag = true ↔ block.degraded = true ∨ ∃ d, SetAside c width scrub id (file v1 id) d) := by
  by_cases haside : ∃ d, SetAside c width scrub id (file v1 id) d
  · refine ⟨true, ?_, iff_of_true rfl (.inr haside)⟩
    rw [(h.corrupt.records id).1 haside, hrecord]
    rfl
  · refine ⟨block.degraded, ?_, (or_iff_left haside).symm⟩
    rw [(h.corrupt.records id).2 haside, hrecord]

/-- The record after the adoptions. -/
theorem Phases.recordOf_adopt (hrecord : recordOf v1.store id = some block) :
    ∃ depth flag, recordOf vB.store id = some { block with depth := depth, degraded := flag } ∧
      (∀ d, Lands c width v1 id block d → depth = d) ∧ ((∀ d, ¬ Lands c width v1 id block d) → depth = block.depth) ∧
      (flag = true ↔ block.degraded = true ∨ (∃ d, SetAside c width scrub id (file v1 id) d) ∨
        (Adoptable width v1 id block ∧ ∀ d, ¬ Lands c width v1 id block d)) := by
  obtain ⟨flag, hA, hflag⟩ := h.recordOf_corrupt hrecord
  by_cases hadopt : Adoptable width v1 id block
  · have hsettled := h.adopt_records id block hadopt
    rw [hA] at hsettled
    by_cases hland : ∃ d, Lands c width v1 id block d
    · obtain ⟨d, hd⟩ := hland
      refine ⟨d, flag, hsettled.1 d ((lands_iff_adopted h.corrupt hadopt).1 hd), fun d' hd' => hd.unique hd',
        fun hno => (hno d hd).elim, hflag.trans (or_congr_right (or_iff_left ?_).symm)⟩
      exact fun hno => hno.2 d hd
    · have hno : ∀ d, ¬ Lands c width v1 id block d := fun d hd => hland ⟨d, hd⟩
      exact ⟨block.depth, true, hsettled.2 fun d hd => hno d ((lands_iff_adopted h.corrupt hadopt).2 hd),
        fun d hd => (hno d hd).elim, fun _ => rfl, iff_of_true rfl (.inr (.inr ⟨hadopt, hno⟩))⟩
  · have hno : ∀ d, ¬ Lands c width v1 id block d := fun d hd => hadopt (hd.adoptable hrecord)
    have hnone : ∀ block', ¬ Adoptable width v1 id block' := by
      intro block' h'
      have heq := h'.1
      cases hrecord.symm.trans heq
      exact hadopt h'
    refine ⟨block.depth, flag, (recordOf_of_slice (h.adopt_other id hnone)).trans hA, fun d hd => (hno d hd).elim,
      fun _ => rfl, hflag.trans (or_congr_right (or_iff_left ?_).symm)⟩
    exact fun hcon => hadopt hcon.1

/-- **What the second round makes of a record**: it is mended, and its count set. -/
theorem Phases.recordOf_eq (hrecord : recordOf v1.store id = some block) :
    ∃ block', Mended c width scrub v1 id block block' ∧ recordOf v'.store id = recountedBy expected id block' := by
  obtain ⟨depth, flag, hB, hlands, hstays, hflag⟩ := h.recordOf_adopt hrecord
  obtain ⟨hlast, hlast'⟩ := h.recordOf_last id
  by_cases hbare : Bare width v1 id
  · -- no file anywhere, so nothing to adopt
    have ⟨block', hrecord', hdeg, hown, hempty⟩ := hbare
    cases hrecord.symm.trans hrecord'
    have hno : ∀ d, ¬ Lands c width v1 id block d := fun d hd => (hd.adoptable hrecord).2.2.2 hempty
    refine ⟨degrade { block with depth := depth, degraded := flag }, ⟨rfl, hlands, hstays, ?_⟩, ?_⟩
    · exact iff_of_true rfl (.inr (.inr ⟨hown, hno⟩))
    · rw [hlast hbare, hB, Option.bind_some, recountedBy_degrade]
  · refine ⟨{ block with depth := depth, degraded := flag }, ⟨rfl, hlands, hstays, hflag.trans ?_⟩, ?_⟩
    · refine or_congr_right' fun hdeg => or_congr_right (and_congr_left fun _ => ?_)
      have hdeg : block.degraded = false := Bool.eq_false_iff.2 hdeg
      constructor
      · exact fun hadopt => hadopt.2.2.1
      · intro hown
        exact ⟨hrecord, hdeg, hown, fun hempty => hbare ⟨block, hrecord, hdeg, hown, hempty⟩⟩
    · rw [hlast' hbare, hB, Option.bind_some]

/-- The files that stay in place. -/
theorem Phases.file_eq_some {bytes : Bytes} : file v' id d = some bytes ↔
    file v1 id d = some bytes ∧ accepts width id d = true ∧ ¬ SetAside c width scrub id (file v1 id) d ∧
      ¬ OvertakenIn c width v1 vA id d ∧ ¬ PassedOverIn c width v1 vA id d ∧ ¬ Unlinked expected vB id d ∧
      ¬ Deleted width v1 id d := by
  constructor
  · intro hf
    by_cases hP : .block id d ∈ (walkDisk width v1).foreign
    · cases (h.expel.gone id d hP).symm.trans hf
    rw [h.expel.stays id d hP] at hf
    obtain ⟨hfD, hdeleted, -⟩ := h.delete.shrinks hf
    obtain ⟨hfC, -, -⟩ := h.flag.shrinks hfD
    obtain ⟨hfB, hunlinked, -⟩ := h.count.shrinks hfC
    obtain ⟨hfA, hovertaken, hpassed⟩ := h.adopt.shrinks hfB
    obtain ⟨hf1, -, haside⟩ := h.corrupt.shrinks hfA
    refine ⟨hf1, ?_, haside, hovertaken, hpassed, hunlinked, hdeleted⟩
    by_contra haccepts
    exact hP (mem_foreign.2 ⟨Bool.eq_false_iff.2 haccepts, by rw [hf1]; rfl⟩)
  · rintro ⟨hf1, haccepts, haside, hovertaken, hpassed, hunlinked, hdeleted⟩
    have hP : .block id d ∉ (walkDisk width v1).foreign := by
      intro hP
      cases ((mem_foreign.1 hP).1).symm.trans haccepts
    rw [h.expel.stays id d hP, h.delete.stays id d hdeleted not_false, h.flag.stays id d not_false not_false,
      h.count.stays id d hunlinked not_false, h.adopt.stays id d hovertaken hpassed, h.corrupt.stays id d not_false haside,
      hf1]

/-- A record's own file stays, unless it is corrupt or goes with the record. -/
theorem Phases.own_file {bytes : Bytes} (hrecord : recordOf v1.store id = some block)
    (hf : file v1 id (diskDepth id block.depth) = some bytes) (haccepts : accepts width id (diskDepth id block.depth) = true)
    (haside : ¬ SetAside c width scrub id (file v1 id) (diskDepth id block.depth))
    (hfree : Unheld expected id → block.rc = 0) : file v' id (diskDepth id block.depth) = some bytes := by
  have hno : ∀ block', ¬ Adoptable width v1 id block' := by
    rintro block' ⟨hrecord', -, hown, -⟩
    cases hrecord.symm.trans hrecord'
    cases hf.symm.trans hown
  refine h.file_eq_some.2 ⟨hf, haccepts, haside, fun ⟨block', hadopt, _⟩ => hno block' hadopt,
    fun ⟨block', hadopt, _⟩ => hno block' hadopt, ?_, ?_⟩
  · rintro ⟨hunheld, record, hB, hrc, -⟩
    obtain ⟨depth, flag, hB', -⟩ := h.recordOf_adopt hrecord
    cases hB.symm.trans hB'
    exact hrc (hfree hunheld)
  · rintro ⟨-, -, hnone | ⟨block', hrecord', hne, hown, -⟩⟩
    · cases hrecord.symm.trans hnone
    · cases hrecord.symm.trans hrecord'
      exact hne (diskDepth_of_accepts hown).symm

end Phases

end QssStorage.Scrub
