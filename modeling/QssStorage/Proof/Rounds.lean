import QssStorage.Proof.Teardown
import QssStorage.Proof.Phases

/-!
# A repair in two rounds

The first round removes holders and releases what they held; what it leaves of records,
files and holders is said in terms of the volume before it. The second round is planned on
what the first one leaves.

* `fsckRepair_rounds`: a repair is the two rounds.
-/

namespace QssStorage.Scrub

variable {c : Config} {width : ℕ} {scrub : Bool}

/-! ## The first round -/

/-- What the releases of the first round leave of a block record. -/
def remaining (s : Store) (id : BlockId) : Option Block :=
  match recordOf s id with
  | none => none
  | some block =>
    if (releasedRefs s).count id < lasts block.rc then
      some { block with rc := if (releasedRefs s).count id = 0 then block.rc else lasts block.rc - (releasedRefs s).count id }
    else none

/-- A record that counts as a holder, and that the first round does not remove, names `id`. -/
def Survives (s : Store) (id : BlockId) : Prop :=
  (∃ t tree k o, s.trees.get t = some tree ∧ isReserved t = false ∧ ¬ TornDown s t ∧ tree.get k = some (.record o) ∧
    id ∈ o.blocks) ∨
    ∃ k part, s.parts.get k = some (.record part) ∧ ¬ Reaped s k ∧ id ∈ part.blocks

section FirstRound

variable {v v1 : Volume} (h : FirstRound v v1)
include h

theorem FirstRound.recordOf_eq (id : BlockId) : recordOf v1.store id = remaining v.store id := by
  have hblocks := h.shed.released.blocks id
  unfold remaining
  match hget : v.store.blocks.get id with
  | none =>
    rw [hget, lessen_iterate_none] at hblocks
    simp only [recordOf, hget, hblocks]
  | some .garbage =>
    rw [hget, lessen_iterate_garbage] at hblocks
    simp only [recordOf, hget, hblocks]
  | some (.record block) =>
    rw [hget, lessen_iterate] at hblocks
    rw [recordOf_eq_some.2 hget]
    by_cases hlt : (releasedRefs v.store).count id < lasts block.rc
    · rw [if_pos hlt] at hblocks
      rw [recordOf_eq_some.2 hblocks]
      exact (if_pos hlt).symm
    · rw [if_neg hlt] at hblocks
      have hnone : recordOf v1.store id = none := by simp only [recordOf, hblocks]
      rw [hnone]
      exact (if_neg hlt).symm

theorem FirstRound.spent_iff (id : BlockId) (d : ℕ) : Spent (fun id => (releasedRefs v.store).count id) v.store id d ↔
      ∃ block, recordOf v.store id = some block ∧ remaining v.store id = none ∧ d = diskDepth id block.depth := by
  unfold Spent
  refine exists_congr fun block => ?_
  rw [recordOf_eq_some]
  refine and_congr_right fun hget => and_congr_left fun _ => ?_
  rw [← h.recordOf_eq, ← h.shed.released.blocks]
  constructor
  · intro hnone
    simp only [recordOf, hnone]
  intro hnone
  -- a record that decodes does not turn into one that does not
  have hblocks := h.shed.released.blocks id
  rw [hget, lessen_iterate] at hblocks
  by_cases hlt : (releasedRefs v.store).count id < lasts block.rc
  · rw [if_pos hlt] at hblocks
    cases (recordOf_eq_some.2 hblocks).symm.trans hnone
  · rw [if_neg hlt] at hblocks
    exact hblocks

theorem FirstRound.holds_iff (id : BlockId) : Holds v1.store id ↔ Survives v.store id := by
  unfold Holds Survives
  refine or_congr ?_ ?_
  · constructor
    · rintro ⟨t, tree, k, o, htree, hres, hget, hid⟩
      have hT : ¬ TornDown v.store t := by
        intro hT
        cases (h.shed.tree_gone t hT).symm.trans htree
      rw [h.shed.tree_kept t hT] at htree
      exact ⟨t, tree, k, o, htree, hres, hT, hget, hid⟩
    · rintro ⟨t, tree, k, o, htree, hres, hT, hget, hid⟩
      exact ⟨t, tree, k, o, (h.shed.tree_kept t hT).trans htree, hres, hget, hid⟩
  · constructor
    · rintro ⟨k, part, hget, hid⟩
      have hP : ¬ Reaped v.store k := by
        intro hP
        cases (h.shed.part_gone k hP).symm.trans hget
      rw [h.shed.part_kept k hP] at hget
      exact ⟨k, part, hget, hP, hid⟩
    · rintro ⟨k, part, hget, hP, hid⟩
      exact ⟨k, part, (h.shed.part_kept k hP).trans hget, hid⟩

theorem FirstRound.read (hread : HoldersRead v.store) : HoldersRead v1.store := by
  refine ⟨?_, ?_⟩
  · intro t tree htree hres
    by_cases hT : TornDown v.store t
    · cases (h.shed.tree_gone t hT).symm.trans htree
    · rw [h.shed.tree_kept t hT] at htree
      exact hread.1 t tree htree hres
  intro k hget
  by_cases hP : Reaped v.store k
  · rw [h.shed.part_gone k hP] at hget
    cases hget
  · rw [h.shed.part_kept k hP] at hget
    exact hread.2 k hget

/-- Files only go in the first round. -/
theorem FirstRound.shrinks {id : BlockId} {d : ℕ} {bytes : Bytes} (hf : file v1 id d = some bytes) :
    file v id d = some bytes := by
  by_cases hs : Spent (fun id => (releasedRefs v.store).count id) v.store id d
  · rw [file, h.shed.released.gone id d hs] at hf
    cases hf
  · rw [file, h.shed.released.kept id d hs] at hf
    exact hf

/-- The files of a block whose record is left are left too. -/
theorem FirstRound.file_eq {id : BlockId} (hrecord : (remaining v.store id).isSome) : file v1 id = file v id := by
  funext d
  refine h.shed.released.kept id d fun hs => ?_
  obtain ⟨_, -, hnone, -⟩ := (h.spent_iff id d).1 hs
  rw [hnone] at hrecord
  cases hrecord

end FirstRound

/-! ## Both rounds -/

/-- The counts the recount of a repair of `v` sets, after a first round that left `s1`. -/
def countsAfter (v : Volume) (s1 : Store) : Option (BlockId → ℕ) :=
  if (walkHolders v.store).isSome then expectedCounts s1 else none

/-- The recount frees what no surviving holder names. -/
theorem FirstRound.unheld_iff {v v1 : Volume} (h : FirstRound v v1) (id : BlockId) :
    Unheld (countsAfter v v1.store) id ↔ (walkHolders v.store).isSome = true ∧ ¬ Survives v.store id := by
  unfold Unheld countsAfter
  by_cases hread : (walkHolders v.store).isSome = true
  · obtain ⟨refs, hrefs⟩ := Option.isSome_iff_exists.1 (walkHolders_isSome.2 (h.read (walkHolders_isSome.1 hread)))
    rw [if_pos hread, ← h.holds_iff, ← mem_walkHolders hrefs, ← List.count_eq_zero, expectedCounts, hrefs]
    simp only [Option.map_some, Option.some.injEq, exists_eq_left', hread, true_and]
  · simp only [hread, Bool.false_eq_true, if_false, reduceCtorEq, false_and, exists_false]

/-- A repair of `v` into `v'`, the first round having left `v1`. -/
structure Rounds (c : Config) (width : ℕ) (scrub : Bool) (v v1 v' : Volume) : Prop where
  first : FirstRound v v1
  second : ∃ vA vB vC vD vE, Phases c width scrub (countsAfter v v1.store) v1 vA vB vC vD vE v'

/-- A report leads to a repair in two rounds. -/
theorem run_rounds {v : Volume} {report : Report} (hrun : run c width scrub v = some report) :
    ∃ v1 v', fsckRepair c width scrub v = some v' ∧ Rounds c width scrub v v1 v' := by
  obtain ⟨v1, hfirst, hrepair⟩ := repair_firstRound c hrun
  obtain ⟨hran, -⟩ := run_ran hrun
  have hread : report.ran .recount = true → (expectedCounts v1.store).isSome := by
    intro hr
    unfold expectedCounts
    rw [Option.isSome_map]
    exact walkHolders_isSome.2 (hfirst.read (walkHolders_isSome.1 (hran ▸ hr)))
  obtain ⟨actions, vA, vB, vC, vD, vE, hplan, hphases⟩ := planRepairs_phases hrun (fun _ _ _ => hfirst.shrinks) hread
  have hcounts : targets report v1.store = countsAfter v v1.store := by
    unfold targets countsAfter
    rw [hran]
  refine ⟨v1, applyAll c actions v1, ?_, hfirst, vA, vB, vC, vD, vE, hcounts ▸ hphases⟩
  unfold fsckRepair
  simp only [hrun, hrepair, hplan, Option.map_some]

/-- **A repair is two rounds.** -/
theorem fsckRepair_rounds {v v' : Volume} (h : fsckRepair c width scrub v = some v') :
    ∃ v1, Rounds c width scrub v v1 v' := by
  cases hrun : run c width scrub v with
  | none =>
    unfold fsckRepair at h
    rw [hrun] at h
    cases h
  | some report =>
    obtain ⟨v1, v'', hrepair, hrounds⟩ := run_rounds hrun
    cases h.symm.trans hrepair
    exact ⟨v1, hrounds⟩

end QssStorage.Scrub
