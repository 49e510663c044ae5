import QssStorage.Proof.Unfinished

/-!
# Which records a repair gives up

A repair flags a record as degraded, which tells the write path that the bytes are lost. It
does so on a corrupt copy anywhere, without a look at the record's own file or at the copy an
adoption is about to take.

* `intact_given_up`: a record is flagged that has its file.
-/

namespace QssStorage.Scrub

variable {c : Config} {width : ℕ} {scrub : Bool} {v v1 v' : Volume} {id : BlockId} {block : Block}

/-- The file at the depth a record names hashes to the block. -/
def Intact (c : Config) (v : Volume) (id : BlockId) (block : Block) : Prop :=
  Good c id (file v id) (diskDepth id block.depth)

/-- A block without a file of its own has its first good copy adopted. -/
theorem exists_lands (hflag : block.degraded = false) (hown : file v id (diskDepth id block.depth) = none) :
    (∃ d, Lands c width v id block d) ↔ ∃ d, accepts width id d = true ∧ Good c id (file v id) d := by
  constructor
  · rintro ⟨d, -, -, haccepts, hgood, -⟩
    exact ⟨d, haccepts, hgood⟩
  · intro hex
    classical
    obtain ⟨haccepts, hgood⟩ := Nat.find_spec hex
    exact ⟨Nat.find hex, hflag, hown, haccepts, hgood, fun d hlt hacc hg => Nat.find_min hex hlt ⟨hacc, hg⟩⟩

/-- The copies a repair has to give a record its bytes from: its own file, or one to adopt. -/
def Recoverable (c : Config) (width : ℕ) (v : Volume) (id : BlockId) (block : Block) : Prop :=
  Intact c v id block ∨
    file v id (diskDepth id block.depth) = none ∧ ∃ d, accepts width id d = true ∧ Good c id (file v id) d

/-- A record that a repair leaves has its bytes if it had them, or a copy was there to adopt. -/
theorem Rounds.intact_iff (h : Rounds c width scrub v v1 v') {blockM block' : Block}
    (hrem : remaining v.store id = some block) (hflag : block.degraded = false)
    (hmended : Mended c width scrub v1 id block blockM)
    (hcount : recountedBy (countsAfter v v1.store) id blockM = some block') :
    Intact c v' id block' ↔ id.len = width ∧ Recoverable c width v id block := by
  have ⟨hfirst, vA, vB, vC, vD, vE, hphases⟩ := h
  have hrecord : recordOf v1.store id = some block := (hfirst.recordOf_eq id).trans hrem
  have hfile : file v1 id = file v id := hfirst.file_eq (Option.isSome_of_eq_some hrem)
  -- the recount did not free the record, so its file did not go with it
  have hkept : ¬ (Unheld (countsAfter v v1.store) id ∧ block.rc ≠ 0) := by
    have hrc : blockM.rc = block.rc := by rw [hmended.same]
    rw [← hrc, ← recountedBy_eq_none, hcount]
    exact nofun
  unfold Recoverable Intact
  rw [recountedBy_depth hcount]
  by_cases hland : ∃ d, Lands c width v1 id block d
  · obtain ⟨d, hland⟩ := hland
    have ⟨_, hown, haccepts, hgood, _⟩ := hland
    rw [hmended.lands d hland, diskDepth_of_accepts haccepts]
    have hsome := (hphases.isSome_file_adoptable hrecord (hland.adoptable hrecord)).2 ⟨hland, hkept⟩
    obtain ⟨bytes, hf⟩ := Option.isSome_iff_exists.1 hsome
    have hsame : file v' id d = file v1 id d := hf.trans (hphases.file_eq_some.1 hf).1.symm
    rw [hfile] at hown hgood hsame
    exact iff_of_true ((good_congr hsame).2 hgood) ⟨(accepts_iff.1 haccepts).1, .inr ⟨hown, d, haccepts, hgood⟩⟩
  · push Not at hland
    rw [hmended.stays hland, ← hfile]
    constructor
    · rintro ⟨bytes, hf, hhash⟩
      obtain ⟨hf1, haccepts, -⟩ := hphases.file_eq_some.1 hf
      exact ⟨(accepts_diskDepth block.depth).1 haccepts, .inl ⟨bytes, hf1, hhash⟩⟩
    rintro ⟨hwidth, ⟨bytes, hf, hhash⟩ | ⟨hown, hex⟩⟩
    · refine ⟨bytes, hphases.own_file hrecord hf ((accepts_diskDepth block.depth).2 hwidth) ?_ ?_, hhash⟩
      · exact fun haside => Good.not_bad ⟨bytes, hf, hhash⟩ haside.2.2
      · intro hunheld
        by_contra hrc
        exact hkept ⟨hunheld, hrc⟩
    · obtain ⟨d, hd⟩ := (exists_lands hflag hown).2 hex
      exact (hland d hd).elim

/-- **A repair flags only records whose bytes are lost** if and only if no scrub finds a corrupt
copy of a block whose record has its own file, or has none and another copy to adopt. For a
record that was not flagged before and is still there after. -/
theorem given_up_iff (c : Config) (width : ℕ) (scrub : Bool) (v v' : Volume) (id : BlockId) (block block' : Block)
    (hrepair : fsckRepair c width scrub v = some v') (hbefore : recordOf v.store id = some block)
    (hflag : block.degraded = false) (hafter : recordOf v'.store id = some block') :
    (block'.degraded = true → ¬ Intact c v' id block' ∧ ¬ Intact c v id block) ↔
      ¬ ((∃ d, SetAside c width scrub id (file v id) d) ∧ Recoverable c width v id block) := by
  obtain ⟨v1, hrounds⟩ := fsckRepair_rounds hrepair
  obtain ⟨block1, blockM, hrem, hmended, hcount⟩ := hrounds.origin hafter
  -- the first round changes nothing of the record but its count
  have hsame : block1 = { block with rc := block1.rc } := remaining_same hbefore hrem
  have hflag1 : block1.degraded = false := by rw [hsame]; exact hflag
  have hintact : Intact c v id block1 ↔ Intact c v id block := by rw [hsame]; rfl
  have hrecoverable : Recoverable c width v id block1 ↔ Recoverable c width v id block := by rw [hsame]; rfl
  have hfile : file v1 id = file v id := hrounds.first.file_eq (Option.isSome_of_eq_some hrem)
  have hleft := hrounds.intact_iff hrem hflag1 hmended hcount
  have hgiven := hmended.flag
  rw [hflag1, hfile, ← recountedBy_degraded hcount] at hgiven
  rw [hrecoverable] at hleft
  rw [hleft, hgiven]
  constructor
  · rintro htruth ⟨⟨d, haside⟩, hcopies⟩
    have hwidth : id.len = width := (accepts_iff.1 haside.2.1).1
    exact (htruth (Or.inr (Or.inl ⟨d, haside⟩))).1 ⟨hwidth, hcopies⟩
  intro hnone hcase
  have hlost : ¬ Recoverable c width v id block := by
    intro hcopies
    rcases hcase with hfalse | haside | ⟨hown, hland⟩
    · cases hfalse
    · exact hnone ⟨haside, hcopies⟩
    rcases hrecoverable.2 hcopies with ⟨bytes, hf, -⟩ | ⟨-, hex⟩
    · cases hown.symm.trans hf
    · rw [← hfile] at hown hex
      obtain ⟨d, hd⟩ := (exists_lands hflag1 hown).2 hex
      exact hland d hd
  exact ⟨fun h => hlost h.2, fun h => hlost (Or.inl h)⟩

/-- A store whose hash is known on `abc` and on `x`. -/
def abcxConfig : Config := { abcConfig with hash := fun bytes => if bytes = abc then abcId else xId }

/-- The object of bucket `b` with its block in place, and a file that holds `x` where a copy of
the block would be one level deeper. -/
def damagedVolume : Volume :=
  { abcVolume (OrdMap.insert ∅ abcId (.record ⟨3, 1, 1, false, 0⟩)) with
    store := { (abcVolume (OrdMap.insert ∅ abcId (.record ⟨3, 1, 1, false, 0⟩))).store with
      files := OrdMap.insert (OrdMap.insert ∅ (toLex (abcId, 1)) abc) (toLex (abcId, 2)) [120] } }

/-- What a repair makes of its record and of the file in place. -/
theorem damaged_repaired (scrub : Bool) (block : Block)
    (h : (fsckRepair abcxConfig 32 scrub damagedVolume).map (fun v' => (recordOf v'.store abcId, file v' abcId 1)) =
      some (some block, some abc)) :
    ∃ v', fsckRepair abcxConfig 32 scrub damagedVolume = some v' ∧ recordOf v'.store abcId = some block ∧
      file v' abcId 1 = some abc := by
  obtain ⟨v', hrepair, hout⟩ := Option.map_eq_some_iff.1 h
  obtain ⟨hrecord, hf⟩ := Prod.mk.inj hout
  exact ⟨v', hrepair, hrecord, hf⟩

/-- The same object, with `x` in the one file of its block. -/
def ruinedVolume : Volume :=
  { damagedVolume with
    store := { damagedVolume.store with files := OrdMap.insert ∅ (toLex (abcId, 1)) [120] } }

/-- The scrub finds the file corrupt, sets it aside and gives the record up: nothing of the block
was there to be recovered. -/
theorem given_up_ruined : ∃ v', fsckRepair abcxConfig 32 true ruinedVolume = some v' ∧
    recordOf v'.store abcId = some ⟨3, 1, 1, true, 0⟩ ∧
    ¬ Intact abcxConfig v' abcId ⟨3, 1, 1, true, 0⟩ ∧
    ¬ Intact abcxConfig ruinedVolume abcId ⟨3, 1, 1, false, 0⟩ := by
  have hrun : (fsckRepair abcxConfig 32 true ruinedVolume).map (fun v' => recordOf v'.store abcId) =
      some (some ⟨3, 1, 1, true, 0⟩) := by decide +kernel
  obtain ⟨v', hrepair, hafter⟩ := Option.map_eq_some_iff.1 hrun
  have hiff := given_up_iff _ _ _ _ _ _ ⟨3, 1, 1, false, 0⟩ _ hrepair (by decide +kernel) rfl hafter
  -- the one file there is does not hash to the block
  have hlost : ∀ d bytes, file ruinedVolume abcId d = some bytes → abcxConfig.hash bytes ≠ abcId := by
    intro d bytes hf
    have hmem := OrdMap.mem_entries.2 hf
    obtain ⟨-, rfl⟩ := Prod.mk.inj (List.mem_singleton.1 hmem)
    decide +kernel
  refine ⟨v', hrepair, hafter, hiff.2 (fun h => ?_) rfl⟩
  rcases h.2 with ⟨bytes, hf, hhash⟩ | ⟨-, d, -, bytes, hf, hhash⟩
  · exact hlost _ bytes hf hhash
  · exact hlost d bytes hf hhash

/-- With one the record is given up over the copy, its own file being there and whole. -/
theorem intact_given_up : ∃ v', fsckRepair abcxConfig 32 true damagedVolume = some v' ∧
    recordOf damagedVolume.store abcId = some ⟨3, 1, 1, false, 0⟩ ∧ file damagedVolume abcId 1 = some abc ∧
    recordOf v'.store abcId = some ⟨3, 1, 1, true, 0⟩ ∧ file v' abcId 1 = some abc ∧ abcxConfig.hash abc = abcId := by
  obtain ⟨v', hrepair, hafter, hf⟩ := damaged_repaired true ⟨3, 1, 1, true, 0⟩ (by decide +kernel)
  exact ⟨v', hrepair, by decide +kernel, by decide +kernel, hafter, hf, rfl⟩

end QssStorage.Scrub
