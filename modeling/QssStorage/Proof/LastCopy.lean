import QssStorage.Proof.Rounds

/-!
# Which copies a repair destroys

A repair plans its actions from the records and the names of files, and only an adoption
looks at what a file holds. `Doomed` says which files of a block the second round unlinks,
`Lost` adds those that the first round unlinks with a record it counts down to nothing.

* `orphan_copy_deleted`: a referenced block whose only copy is lost.
-/

namespace QssStorage.Scrub

/-- The depths at which the second round unlinks the files `f` of a block, from its record and
whether the recount finds that nothing holds it. -/
inductive Doomed (c : Config) (width : ℕ) (scrub : Bool) (id : BlockId) (record : Option Block) (f : ℕ → Option Bytes)
    (unheld : Prop) : ℕ → Prop where
  /-- No record: every copy is an orphan, held or not. -/
  | orphan {d : ℕ} (hrecord : record = none) (haccepts : accepts width id d = true)
    (haside : ¬ SetAside c width scrub id f d) : Doomed c width scrub id record f unheld d
  /-- Some file, of whatever content, is where the record says. -/
  | offDepth {block : Block} {d : ℕ} (hrecord : record = some block) (hne : block.depth ≠ d)
    (haccepts : accepts width id d = true) (hown : accepts width id block.depth = true)
    (hfile : (f block.depth).isSome) (haside : ¬ SetAside c width scrub id f d) :
    Doomed c width scrub id record f unheld d
  /-- A copy of less depth is adopted. -/
  | overtaken {block : Block} {d d' : ℕ} (hrecord : record = some block) (hflag : block.degraded = false)
    (hown : f (diskDepth id block.depth) = none) (haccepts : accepts width id d = true) (hlt : d' < d)
    (haccepts' : accepts width id d' = true) (hgood : Good c id f d') (haside : ¬ SetAside c width scrub id f d) :
    Doomed c width scrub id record f unheld d
  /-- Nothing holds the block: the file where the record says goes with it. -/
  | freed {block : Block} (hrecord : record = some block) (hfree : unheld) (hrc : block.rc ≠ 0)
    (haside : ¬ SetAside c width scrub id f (diskDepth id block.depth)) :
    Doomed c width scrub id record f unheld (diskDepth id block.depth)
  /-- Nothing holds the block: the copy just adopted goes with it. -/
  | freedAdopted {block : Block} {d : ℕ} (hrecord : record = some block) (hfree : unheld) (hrc : block.rc ≠ 0)
    (hflag : block.degraded = false) (hown : f (diskDepth id block.depth) = none)
    (haccepts : accepts width id d = true) (hgood : Good c id f d)
    (hfirst : ∀ d' < d, accepts width id d' = true → ¬ Good c id f d') :
    Doomed c width scrub id record f unheld d

/-- Without a record every accepted file goes that no scrub sets aside. -/
theorem doomed_none {c : Config} {width : ℕ} {scrub : Bool} {id : BlockId} {f : ℕ → Option Bytes} {unheld : Prop} {d : ℕ} :
    Doomed c width scrub id none f unheld d ↔ accepts width id d = true ∧ ¬ SetAside c width scrub id f d := by
  constructor
  · intro h
    cases h with
    | orphan _ haccepts haside => exact ⟨haccepts, haside⟩
    | offDepth hrecord | overtaken hrecord | freed hrecord | freedAdopted hrecord => cases hrecord
  · exact fun h => .orphan rfl h.1 h.2

/-! ## The second round -/

/-- The second round unlinks this file of `v`, `unheld` being what the recount would free. -/
def DoomedIn (c : Config) (width : ℕ) (scrub : Bool) (unheld : BlockId → Prop) (v : Volume) (id : BlockId) (d : ℕ) : Prop :=
  Doomed c width scrub id (recordOf v.store id) (file v id) (unheld id) d

/-- What the second round of a repair does to the files of `v1`. -/
structure SecondRound (c : Config) (width : ℕ) (scrub : Bool) (unheld : BlockId → Prop) (v1 v' : Volume) : Prop where
  in_place : ∀ id d bytes, file v' id d = some bytes → file v1 id d = some bytes ∧ ¬ DoomedIn c width scrub unheld v1 id d
  aside : ∀ bytes ∈ v'.quarantine, bytes ∈ v1.quarantine ∨
    (∃ id d, file v1 id d = some bytes ∧ ¬ DoomedIn c width scrub unheld v1 id d) ∨ ∃ p, v1.foreign.get p = some (.file bytes)
  kept : ∀ id d bytes, file v1 id d = some bytes → ¬ DoomedIn c width scrub unheld v1 id d →
    file v' id d = some bytes ∨ bytes ∈ v'.quarantine
  grows : ∀ bytes ∈ v1.quarantine, bytes ∈ v'.quarantine
  foreign : ∀ p bytes, v1.foreign.get p = some (.file bytes) → bytes ∈ v'.quarantine

section Phases

variable {c : Config} {width : ℕ} {scrub : Bool} {expected : Option (BlockId → ℕ)} {v1 vA vB vC vD vE v' : Volume}
variable {id : BlockId} {d : ℕ}

/-- What the deletions unlink is doomed. -/
theorem Deleted.doomed {unheld : BlockId → Prop} (haside : ¬ SetAside c width scrub id (file v1 id) d)
    (h : Deleted width v1 id d) :
    DoomedIn c width scrub unheld v1 id d := by
  obtain ⟨haccepts, -, hnone | ⟨block, hrecord, hne, hown, hfile⟩⟩ := h
  · exact .orphan hnone haccepts haside
  · exact .offDepth hrecord hne haccepts hown hfile haside

variable (h : Phases c width scrub expected v1 vA vB vC vD vE v')
include h

/-- What an adoption unlinks is doomed. -/
theorem OvertakenIn.doomed {bytes : Bytes} (hd : OvertakenIn c width v1 vA id d) (hf : file vA id d = some bytes) :
    DoomedIn c width scrub (Unheld expected) v1 id d := by
  obtain ⟨block, ⟨hrecord, hflag, hown, -⟩, hd, d', hd', hlt, hgood⟩ := hd
  exact .overtaken hrecord hflag hown ((mem_candidates hown).1 hd).1 hlt ((mem_candidates hown).1 hd').1
    ((good_after_corrupt h.corrupt).1 hgood) (not_setAside_of_file h.corrupt hf)

/-- A copy behind a good one is unlinked. -/
theorem overtakenIn_of_good {block : Block} {d d' : ℕ} (hrecord : recordOf v1.store id = some block)
    (hflag : block.degraded = false) (hown : file v1 id (diskDepth id block.depth) = none)
    (haccepts : accepts width id d = true) (hf : (file v1 id d).isSome) (hlt : d' < d)
    (haccepts' : accepts width id d' = true) (hgood : Good c id (file v1 id) d') : OvertakenIn c width v1 vA id d := by
  have hd : d ∈ candidates width v1 id block := (mem_candidates hown).2 ⟨haccepts, hf⟩
  have hd' : d' ∈ candidates width v1 id block := by
    obtain ⟨bytes, hf', -⟩ := hgood
    exact (mem_candidates hown).2 ⟨haccepts', by rw [hf']; rfl⟩
  exact ⟨block, ⟨hrecord, hflag, hown, List.ne_nil_of_mem hd⟩, hd, d', hd', hlt, (good_after_corrupt h.corrupt).2 hgood⟩

/-- What an adoption sets aside is not doomed. -/
theorem PassedOverIn.not_doomed (unheld : BlockId → Prop) (hd : PassedOverIn c width v1 vA id d) :
    ¬ DoomedIn c width scrub unheld v1 id d := by
  obtain ⟨block, ⟨hrecord, hflag, hown, -⟩, hd, ⟨bytes, hf, hhash⟩, hno⟩ := hd
  have hf1 := (h.corrupt.shrinks hf).1
  have hbad : Bad c id (file v1 id) d := ⟨bytes, hf1, hhash⟩
  have hfirst : ∀ d' < d, accepts width id d' = true → ¬ Good c id (file v1 id) d' := by
    intro d' hlt haccepts hgood
    have hd' : d' ∈ candidates width v1 id block := by
      obtain ⟨bytes', hf', -⟩ := hgood
      exact (mem_candidates hown).2 ⟨haccepts, by rw [hf']; rfl⟩
    exact hno d' hd' hlt ((good_after_corrupt h.corrupt).2 hgood)
  intro hdoomed
  cases hdoomed with
  | orphan hrecord' => rw [hrecord] at hrecord'; cases hrecord'
  | offDepth hrecord' _ _ haccepts hfile =>
    cases hrecord.symm.trans hrecord'
    rw [diskDepth_of_accepts haccepts] at hown
    rw [hown] at hfile
    cases hfile
  | overtaken _ _ _ _ hlt haccepts' hgood => exact hfirst _ hlt haccepts' hgood
  | freed hrecord' =>
    cases hrecord.symm.trans hrecord'
    cases hown.symm.trans hf1
  | freedAdopted _ _ _ _ _ _ hgood => exact hgood.not_bad hbad

/-- What the recount unlinks is doomed. -/
theorem Unlinked.doomed (haside : ¬ SetAside c width scrub id (file v1 id) d) (hd : Unlinked expected vB id d) :
    DoomedIn c width scrub (Unheld expected) v1 id d := by
  obtain ⟨hfree, record, hB, hrc, hd⟩ := hd
  obtain ⟨block, hrecord⟩ : ∃ block, recordOf v1.store id = some block := by
    have hsame := rc_after_adoptions h.corrupt h.adopt_records h.adopt_other id
    rw [hB] at hsame
    obtain ⟨block, hblock, -⟩ := Option.map_eq_some_iff.1 hsame.symm
    exact ⟨block, hblock⟩
  obtain ⟨depth, flag, hB', hlands, hstays, -⟩ := h.recordOf_adopt hrecord
  rw [hB] at hB'
  cases hB'
  by_cases hland : ∃ d', Lands c width v1 id block d'
  · obtain ⟨d', hland⟩ := hland
    obtain rfl := hlands d' hland
    obtain ⟨hdeg, hown, haccepts, hgood, hfirst⟩ := hland
    have hd' : d = depth := hd.trans (diskDepth_of_accepts haccepts)
    rw [hd']
    exact .freedAdopted hrecord hfree hrc hdeg hown haccepts hgood hfirst
  · have hd' : d = diskDepth id block.depth := by rw [← hstays fun d' h => hland ⟨d', h⟩]; exact hd
    rw [hd'] at haside ⊢
    exact .freed hrecord hfree hrc haside

/-- A file that is still there before the last phase was not doomed. -/
theorem Phases.in_place {bytes : Bytes} (hf : file vE id d = some bytes) :
    file v1 id d = some bytes ∧ ¬ DoomedIn c width scrub (Unheld expected) v1 id d := by
  obtain ⟨hfD, hnotE, -⟩ := h.delete.shrinks hf
  obtain ⟨hfC, -, -⟩ := h.flag.shrinks hfD
  obtain ⟨hfB, hnotC, -⟩ := h.count.shrinks hfC
  obtain ⟨hfA, hnotB, -⟩ := h.adopt.shrinks hfB
  have hf1 := (h.corrupt.shrinks hfA).1
  have hsome : (file v1 id d).isSome := by rw [hf1]; rfl
  refine ⟨hf1, fun hdoomed => ?_⟩
  cases hdoomed with
  | orphan hrecord haccepts => exact hnotE ⟨haccepts, hsome, .inl hrecord⟩
  | offDepth hrecord hne haccepts hown hfile =>
    exact hnotE ⟨haccepts, hsome, .inr ⟨_, hrecord, hne, hown, hfile⟩⟩
  | overtaken hrecord hdeg hown haccepts hlt haccepts' hgood =>
    exact hnotB (overtakenIn_of_good h hrecord hdeg hown haccepts hsome hlt haccepts' hgood)
  | freed hrecord hfree hrc =>
    have hno : ∀ d', ¬ Lands c width v1 id _ d' := fun d' hd' => by
      rw [hd'.2.1] at hsome
      cases hsome
    obtain ⟨depth, flag, hB, -, hstays, -⟩ := h.recordOf_adopt hrecord
    obtain rfl := hstays hno
    exact hnotC ⟨hfree, _, hB, hrc, rfl⟩
  | freedAdopted hrecord hfree hrc hdeg hown haccepts hgood hfirst =>
    obtain ⟨depth, flag, hB, hlands, -, -⟩ := h.recordOf_adopt hrecord
    obtain rfl := hlands d ⟨hdeg, hown, haccepts, hgood, hfirst⟩
    exact hnotC ⟨hfree, _, hB, hrc, (diskDepth_of_accepts haccepts).symm⟩

/-- **The second round of a repair**, as far as files go. -/
theorem Phases.secondRound : SecondRound c width scrub (Unheld expected) v1 v' := by
  refine ⟨?_, ?_, ?_, ?_, ?_⟩
  · intro id d bytes hf
    by_cases hP : .block id d ∈ (walkDisk width v1).foreign
    · rw [h.expel.gone id d hP] at hf; cases hf
    · exact h.in_place (h.expel.stays id d hP ▸ hf)
  · intro bytes hq
    rcases (h.expel.quarantine bytes).1 hq with hq | ⟨id, d, -, hf⟩ | ⟨p, -, hf⟩
    · -- only the first two phases set files aside before
      have hqB : bytes ∈ vB.quarantine := by
        have hqD := (h.delete.moved bytes hq).resolve_right fun ⟨_, _, h, _⟩ => h
        have hqC := (h.flag.moved bytes hqD).resolve_right fun ⟨_, _, h, _⟩ => h
        exact (h.count.moved bytes hqC).resolve_right fun ⟨_, _, h, _⟩ => h
      rcases h.adopt.moved bytes hqB with hqA | ⟨id, d, hpassed, hf⟩
      · rcases h.corrupt.moved bytes hqA with hq1 | ⟨id, d, haside, hf⟩
        · exact .inl hq1
        refine .inr (.inl ⟨id, d, hf, fun hdoomed => ?_⟩)
        cases hdoomed with
        | orphan _ _ h => exact h haside
        | offDepth _ _ _ _ _ h | overtaken _ _ _ _ _ _ _ h | freed _ _ _ h => exact h haside
        | freedAdopted _ _ _ _ _ _ hgood _ => exact hgood.not_bad haside.2.2
      · exact .inr (.inl ⟨id, d, (h.corrupt.shrinks hf).1, PassedOverIn.not_doomed h _ hpassed⟩)
    · exact .inr (.inl ⟨id, d, h.in_place hf⟩)
    · exact .inr (.inr ⟨p, h.framed.foreign ▸ hf⟩)
  · intro id d bytes hf hdoomed
    have hqE : bytes ∈ vE.quarantine → bytes ∈ v'.quarantine := fun hq => (h.expel.quarantine bytes).2 (.inl hq)
    have hqC : bytes ∈ vC.quarantine → bytes ∈ v'.quarantine := fun hq => hqE (h.delete.grows bytes (h.flag.grows bytes hq))
    rcases h.corrupt.kept hf not_false with hfA | hq
    · have haside := not_setAside_of_file h.corrupt hfA
      rcases h.adopt.kept hfA fun hd => hdoomed (OvertakenIn.doomed h hd hfA) with hfB | hq
      · rcases h.count.kept hfB fun hd => hdoomed (Unlinked.doomed h haside hd) with hfC | hq
        · rcases h.delete.kept ((h.flag.stays id d not_false not_false).trans hfC)
            fun hd => hdoomed (Deleted.doomed haside hd) with hfE | hq
          · by_cases hP : .block id d ∈ (walkDisk width v1).foreign
            · exact .inr ((h.expel.quarantine bytes).2 (.inr (.inl ⟨id, d, hP, hfE⟩)))
            · exact .inl ((h.expel.stays id d hP).trans hfE)
          · exact .inr (hqE hq)
        · exact .inr (hqC hq)
      · exact .inr (hqC (h.count.grows bytes hq))
    · exact .inr (hqC (h.count.grows bytes (h.adopt.grows bytes hq)))
  · intro bytes hq
    have hqB := h.adopt.grows bytes (h.corrupt.grows bytes hq)
    exact (h.expel.quarantine bytes).2 (.inl (h.delete.grows bytes (h.flag.grows bytes (h.count.grows bytes hqB))))
  · intro p bytes hf
    refine (h.expel.quarantine bytes).2 (.inr (.inr ⟨p, mem_foreign_other.2 (by rw [hf]; rfl), ?_⟩))
    rw [h.framed.foreign, hf]

end Phases

/-! ## Both rounds -/

/-- A repair of `v` unlinks the file of `id` at `d`: the releases of the first round use the
record up, or the second round finds the file unreferenced. -/
def Lost (c : Config) (width : ℕ) (scrub : Bool) (v : Volume) (id : BlockId) (d : ℕ) : Prop :=
  (∃ block, recordOf v.store id = some block ∧ remaining v.store id = none ∧ d = diskDepth id block.depth) ∨
    Doomed c width scrub id (remaining v.store id) (file v id)
      ((walkHolders v.store).isSome = true ∧ ¬ Survives v.store id) d

section FirstRound

variable {v v1 : Volume} (h : FirstRound v v1)
include h

/-- The files that are there after the first round, and are not doomed then. -/
theorem FirstRound.lost_iff (c : Config) (width : ℕ) (scrub : Bool) (id : BlockId) (d : ℕ) (bytes : Bytes) :
    file v1 id d = some bytes ∧ ¬ DoomedIn c width scrub (Unheld (countsAfter v v1.store)) v1 id d ↔
      file v id d = some bytes ∧ ¬ Lost c width scrub v id d := by
  unfold Lost DoomedIn
  rw [← h.spent_iff, h.recordOf_eq, h.unheld_iff]
  by_cases hspent : Spent (fun id => (releasedRefs v.store).count id) v.store id d
  · have hgone : file v1 id d = none := h.shed.released.gone id d hspent
    simp only [hgone, hspent, true_or, not_true_eq_false, and_false, reduceCtorEq, false_and]
  have hstays : file v1 id d = file v id d := h.shed.released.kept id d hspent
  simp only [hspent, false_or, hstays]
  refine and_congr_right fun _ => not_congr ?_
  cases hrem : remaining v.store id with
  | some block => rw [h.file_eq (by rw [hrem]; rfl)]
  | none =>
    have haside : SetAside c width scrub id (file v1 id) d ↔ SetAside c width scrub id (file v id) d := by
      unfold SetAside
      rw [bad_congr hstays]
    rw [doomed_none, doomed_none, haside]

end FirstRound

/-! ## The last copy -/

/-- An object or a part names the block. -/
def Named (s : Store) (b : BlockId) : Prop :=
  (∃ t tree k o, s.trees.get t = some tree ∧ tree.get k = some (.record o) ∧ b ∈ o.blocks) ∨
    ∃ k part, s.parts.get k = some (.record part) ∧ b ∈ part.blocks

/-- Some file, in place or set aside, holds bytes that hash to `b`. -/
def HasCopy (c : Config) (v : Volume) (b : BlockId) : Prop :=
  (∃ id d bytes, file v id d = some bytes ∧ c.hash bytes = b) ∨ ∃ bytes ∈ v.quarantine, c.hash bytes = b

/-- Some file holds bytes that hash to `b` and is not lost by a repair: a block file, a
foreign one, or one that an earlier repair set aside. -/
def Spared (c : Config) (width : ℕ) (scrub : Bool) (v : Volume) (b : BlockId) : Prop :=
  (∃ id d bytes, (file v id d = some bytes ∧ ¬ Lost c width scrub v id d) ∧ c.hash bytes = b) ∨
    (∃ p bytes, v.foreign.get p = some (.file bytes) ∧ c.hash bytes = b) ∨ ∃ bytes ∈ v.quarantine, c.hash bytes = b

/-- A repair leaves exactly what is not lost. -/
theorem fsckRepair_spares {c : Config} {width : ℕ} {scrub : Bool} {v v' : Volume} (h : fsckRepair c width scrub v = some v')
    (b : BlockId) : HasCopy c v' b ↔ Spared c width scrub v b := by
  obtain ⟨v1, hfirst, vA, vB, vC, vD, vE, hphases⟩ := fsckRepair_rounds h
  have hsecond := hphases.secondRound
  have hlost := hfirst.lost_iff c width scrub
  have hforeign : v1.foreign = v.foreign := by rw [hfirst.volume]
  have hquarantine : v1.quarantine = v.quarantine := by rw [hfirst.volume]
  constructor
  · rintro (⟨id, d, bytes, hf, hb⟩ | ⟨bytes, hq, hb⟩)
    · exact .inl ⟨id, d, bytes, (hlost id d bytes).1 (hsecond.in_place id d bytes hf), hb⟩
    · rcases hsecond.aside bytes hq with hq | ⟨id, d, hf⟩ | ⟨p, hp⟩
      · exact .inr (.inr ⟨bytes, hquarantine ▸ hq, hb⟩)
      · exact .inl ⟨id, d, bytes, (hlost id d bytes).1 hf, hb⟩
      · exact .inr (.inl ⟨p, bytes, hforeign ▸ hp, hb⟩)
  rintro (⟨id, d, bytes, hf, hb⟩ | ⟨p, bytes, hp, hb⟩ | ⟨bytes, hq, hb⟩)
  · obtain ⟨hf, hnot⟩ := (hlost id d bytes).2 hf
    rcases hsecond.kept id d bytes hf hnot with hf' | hq
    · exact .inl ⟨id, d, bytes, hf', hb⟩
    · exact .inr ⟨bytes, hq, hb⟩
  · exact .inr ⟨bytes, hsecond.foreign p bytes (hforeign.symm ▸ hp), hb⟩
  · exact .inr ⟨bytes, hsecond.grows bytes (hquarantine.symm ▸ hq), hb⟩

/-- **A repair keeps a copy of a referenced block exactly if one of its copies is spared.** For
a block that some surviving object or part names, and that some accepted file holds. -/
theorem copy_kept_iff (c : Config) (width : ℕ) (scrub : Bool) (v v' : Volume) (b : BlockId)
    (hrepair : fsckRepair c width scrub v = some v') :
    Named v'.store b → (∃ id d bytes, accepts width id d = true ∧ file v id d = some bytes ∧ c.hash bytes = b) →
      (HasCopy c v' b ↔ Spared c width scrub v b) := fun _ _ => fsckRepair_spares hrepair b

theorem abcVolume_file (blocks : OrdMap BlockId (Cell Block)) :
    ∃ id d bytes, accepts 32 id d = true ∧ file (abcVolume blocks) id d = some bytes ∧ abcConfig.hash bytes = abcId :=
  ⟨abcId, 1, abc, by decide +kernel, OrdMap.get_insert_self _ _ _, rfl⟩

/-- What a repair leaves of the object, of the files and in quarantine. -/
def outcome (v : Volume) : Option (Cell Object) × List Bytes × List Bytes :=
  ((v.store.tree [98]).get [107], v.store.files.entries.map Prod.snd, v.quarantine)

theorem named_of_outcome {v : Volume} {files aside : List Bytes}
    (h : outcome v = (some (.record ⟨3, 0, [], .singlePart [abcId]⟩), files, aside)) : Named v.store abcId := by
  obtain ⟨hget, -, -⟩ : _ ∧ _ ∧ _ := by simpa only [outcome, Prod.mk.injEq] using h
  cases htree : v.store.trees.get [98] with
  | none => rw [Store.tree, htree] at hget; cases hget
  | some tree =>
    rw [Store.tree, htree] at hget
    exact .inl ⟨[98], tree, [107], _, htree, hget, List.mem_singleton_self _⟩

/-- The record names depth 2, the bytes are at depth 1. -/
def strayCopyVolume : Volume := abcVolume (OrdMap.insert ∅ abcId (.record ⟨3, 2, 1, false, 0⟩))

/-- The file is adopted, so it is not one of those a repair loses. -/
theorem copy_kept_adopted : ∃ v', fsckRepair abcConfig 32 true strayCopyVolume = some v' ∧
    recordOf v'.store abcId = some ⟨3, 1, 1, false, 0⟩ ∧ Named v'.store abcId ∧ HasCopy abcConfig v' abcId ∧
    Spared abcConfig 32 true strayCopyVolume abcId := by
  have hrun : (fsckRepair abcConfig 32 true strayCopyVolume).map
      (fun v' => (outcome v', recordOf v'.store abcId)) =
      some ((some (.record ⟨3, 0, [], .singlePart [abcId]⟩), [abc], []), some ⟨3, 1, 1, false, 0⟩) := by
    decide +kernel
  obtain ⟨v', hrepair, hout⟩ := Option.map_eq_some_iff.1 hrun
  obtain ⟨hout, hrecord⟩ := Prod.mk.inj hout
  have hnamed := named_of_outcome hout
  have hcopy : HasCopy abcConfig v' abcId := by
    obtain ⟨-, hfiles, -⟩ : _ ∧ _ ∧ _ := by simpa only [outcome, Prod.mk.injEq] using hout
    obtain ⟨f, hf, -⟩ := List.mem_map.1 (hfiles ▸ List.mem_singleton_self abc)
    exact .inl ⟨(ofLex f.1).1, (ofLex f.1).2, f.2, OrdMap.mem_entries.1 hf, rfl⟩
  exact ⟨v', hrepair, hrecord, hnamed, hcopy,
    (copy_kept_iff _ _ _ _ _ _ hrepair hnamed (abcVolume_file _)).1 hcopy⟩

/-- An object names the block, its bytes are on disk, and the block record is gone: the file is
deleted as an orphan, and no copy is left. -/
theorem orphan_copy_deleted : ∃ v', fsckRepair abcConfig 32 true (abcVolume ∅) = some v' ∧ Named v'.store abcId ∧
    (∃ id d bytes, accepts 32 id d = true ∧ file (abcVolume ∅) id d = some bytes ∧ abcConfig.hash bytes = abcId) ∧
    ¬ HasCopy abcConfig v' abcId := by
  have hrun : (fsckRepair abcConfig 32 true (abcVolume ∅)).map outcome =
      some (some (.record ⟨3, 0, [], .singlePart [abcId]⟩), [], []) := by decide +kernel
  obtain ⟨v', hrepair, hout⟩ := Option.map_eq_some_iff.1 hrun
  refine ⟨v', hrepair, named_of_outcome hout, abcVolume_file ∅, ?_⟩
  obtain ⟨-, hfiles, haside⟩ : _ ∧ _ ∧ _ := by simpa only [outcome, Prod.mk.injEq] using hout
  rintro (⟨id, d, bytes, hf, -⟩ | ⟨bytes, hq, -⟩)
  · have hmem : bytes ∈ v'.store.files.entries.map Prod.snd := List.mem_map_of_mem (OrdMap.mem_entries.2 hf)
    rw [hfiles] at hmem
    cases hmem
  · rw [haside] at hq
    cases hq

end QssStorage.Scrub
