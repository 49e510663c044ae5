import QssStorage.Spec.Repair

/-!
# What repair actions do to files

Every action of the second round of a repair takes files away: it unlinks some and sets
others aside.

* `applyAll_distinct`: actions about distinct blocks do not meet.
-/

namespace QssStorage.Scrub

open List OrdMap

variable {d : ℕ} {f f' : ℕ → Option Bytes} {block : Block}

/-- The file of `id` at `depth`. -/
def file (v : Volume) (id : BlockId) (depth : ℕ) : Option Bytes := v.store.files.get (toLex (id, depth))

/-- All a volume has of one block: its record and its files. -/
def slice (v : Volume) (id : BlockId) : Option (Cell Block) × (ℕ → Option Bytes) := (v.store.blocks.get id, file v id)

/-- From `v` to `v'` the files of `L` are unlinked and those of `M` set aside. -/
structure Sweeps (L M : BlockId → ℕ → Prop) (v v' : Volume) : Prop where
  stays : ∀ id d, ¬ L id d → ¬ M id d → file v' id d = file v id d
  gone : ∀ id d, L id d ∨ M id d → file v' id d = none
  grows : ∀ bytes ∈ v.quarantine, bytes ∈ v'.quarantine
  aside : ∀ id d bytes, M id d → ¬ L id d → file v id d = some bytes → bytes ∈ v'.quarantine
  moved : ∀ bytes ∈ v'.quarantine, bytes ∈ v.quarantine ∨ ∃ id d, M id d ∧ file v id d = some bytes

theorem Sweeps.refl (v : Volume) : Sweeps (fun _ _ => False) (fun _ _ => False) v v :=
  ⟨fun _ _ _ _ => rfl, fun _ _ h => h.elim False.elim False.elim, fun _ h => h, fun _ _ _ h => h.elim, fun _ h => .inl h⟩

section Sweeps

variable {L M : BlockId → ℕ → Prop} {v v' : Volume}
variable {id : BlockId} {bytes : Bytes}

theorem Sweeps.shrinks (h : Sweeps L M v v') {d : ℕ} (hf : file v' id d = some bytes) :
    file v id d = some bytes ∧ ¬ L id d ∧ ¬ M id d := by
  have hLM : ¬ (L id d ∨ M id d) := by
    intro hLM
    cases (h.gone id d hLM).symm.trans hf
  push Not at hLM
  exact ⟨h.stays id d hLM.1 hLM.2 ▸ hf, hLM⟩

theorem Sweeps.kept (h : Sweeps L M v v') {d : ℕ} (hf : file v id d = some bytes) (hL : ¬ L id d) : file v' id d = some bytes ∨ bytes ∈ v'.quarantine := by
  by_cases hM : M id d
  · exact .inr (h.aside id d bytes hM hL hf)
  · exact .inl ((h.stays id d hL hM).trans hf)

theorem Sweeps.none_of_none (h : Sweeps L M v v') {d : ℕ} (hn : file v id d = none) : file v' id d = none := by
  cases hf : file v' id d with
  | none => rfl
  | some bytes => rw [(h.shrinks hf).1] at hn; cases hn

theorem Sweeps.congr {L' M' : BlockId → ℕ → Prop} (h : Sweeps L M v v') (hL : ∀ id d, L id d ↔ L' id d)
    (hM : ∀ id d, M id d ↔ M' id d) : Sweeps L' M' v v' := by
  obtain rfl : L = L' := funext₂ fun id d => propext (hL id d)
  obtain rfl : M = M' := funext₂ fun id d => propext (hM id d)
  exact h

theorem Sweeps.trans {L' M' : BlockId → ℕ → Prop} {v1 v2 : Volume} (h : Sweeps L M v v1) (h' : Sweeps L' M' v1 v2) :
    Sweeps (fun id d => L id d ∨ L' id d) (fun id d => M id d ∨ M' id d) v v2 where
  stays id d hL hM := by
    push Not at hL hM
    rw [h'.stays id d hL.2 hM.2, h.stays id d hL.1 hM.1]
  gone id d hLM := by
    rcases hLM with (hL | hL') | (hM | hM')
    · exact h'.none_of_none (h.gone id d (.inl hL))
    · exact h'.gone id d (.inl hL')
    · exact h'.none_of_none (h.gone id d (.inr hM))
    · exact h'.gone id d (.inr hM')
  grows bytes hq := h'.grows bytes (h.grows bytes hq)
  aside id d bytes hM hL hf := by
    push Not at hL
    rcases h.kept hf hL.1 with hf' | hq
    · have hM' := hM.resolve_left (h.shrinks hf').2.2
      exact h'.aside id d bytes hM' hL.2 hf'
    · exact h'.grows bytes hq
  moved bytes hq := by
    rcases h'.moved bytes hq with hq | ⟨id, d, hM, hf⟩
    · rcases h.moved bytes hq with hq | ⟨id, d, hM, hf⟩
      · exact .inl hq
      · exact .inr ⟨id, d, .inl hM, hf⟩
    · exact .inr ⟨id, d, .inr hM, (h.shrinks hf).1⟩

end Sweeps

/-- From `v` to `v'` only block records, block files and the quarantine change. -/
structure Framed (v v' : Volume) : Prop where
  store : v'.store = { v.store with blocks := v'.store.blocks, files := v'.store.files }
  misfiled : v'.misfiled = v.misfiled
  foreign : v'.foreign = v.foreign

theorem Framed.refl (v : Volume) : Framed v v := ⟨rfl, rfl, rfl⟩

theorem Framed.trans {v v1 v2 : Volume} (h : Framed v v1) (h' : Framed v1 v2) : Framed v v2 where
  store := by rw [h'.store, h.store]
  misfiled := h'.misfiled.trans h.misfiled
  foreign := h'.foreign.trans h.foreign

/-- An action about `id`: it unlinks the depths of `L` and sets aside those of `M`, and does
nothing to other blocks. -/
structure Tends (id : BlockId) (L M : ℕ → Prop) (v v' : Volume) : Prop where
  sweeps : Sweeps (fun b d => b = id ∧ L d) (fun b d => b = id ∧ M d) v v'
  other : ∀ b, b ≠ id → slice v' b = slice v b
  framed : Framed v v'

theorem Tends.congr {id : BlockId} {L M L' M' : ℕ → Prop} {v v' : Volume} (h : Tends id L M v v')
    (hL : ∀ d, L d ↔ L' d) (hM : ∀ d, M d ↔ M' d) : Tends id L' M' v v' := by
  obtain rfl : L = L' := funext fun d => propext (hL d)
  obtain rfl : M = M' := funext fun d => propext (hM d)
  exact h

theorem Tends.trans {id : BlockId} {L M L' M' : ℕ → Prop} {v v1 v2 : Volume} (h : Tends id L M v v1)
    (h' : Tends id L' M' v1 v2) : Tends id (fun d => L d ∨ L' d) (fun d => M d ∨ M' d) v v2 where
  sweeps := (h.sweeps.trans h'.sweeps).congr (fun _ _ => and_or_left.symm) fun _ _ => and_or_left.symm
  other b hb := (h'.other b hb).trans (h.other b hb)
  framed := h.framed.trans h'.framed

/-- An action that leaves files alone. -/
theorem tends_of_files {id : BlockId} {v v' : Volume} (hfiles : v'.store.files = v.store.files)
    (hblocks : ∀ b, b ≠ id → v'.store.blocks.get b = v.store.blocks.get b) (hq : v'.quarantine = v.quarantine)
    (hframed : Framed v v') : Tends id (fun _ => False) (fun _ => False) v v' where
  sweeps := by
    have hfile : ∀ b d, file v' b d = file v b d := fun b d => by rw [file, file, hfiles]
    refine ⟨fun b d _ _ => hfile b d, ?_, ?_, fun b d bytes h => h.2.elim, ?_⟩
    · rintro b d (h | h) <;> exact h.2.elim
    · rw [hq]; exact fun _ h => h
    · rw [hq]; exact fun _ h => .inl h
  other b hb := by
    unfold slice
    rw [hblocks b hb, show file v' b = file v b from funext fun d => by rw [file, file, hfiles]]
  framed := hframed

theorem Tends.refl (id : BlockId) (v : Volume) : Tends id (fun _ => False) (fun _ => False) v v :=
  tends_of_files rfl (fun _ _ => rfl) rfl (.refl v)

/-! ## Primitives -/

theorem file_unlink (id b : BlockId) (depth d : ℕ) (v : Volume) :
    file (unlink id depth v) b d = if b = id ∧ d = depth then none else file v b d := by
  unfold file unlink onStore
  simp only [get_erase]
  have hkey : (toLex (b, d) = toLex (id, depth)) ↔ b = id ∧ d = depth := by
    rw [toLex.injective.eq_iff, Prod.mk.injEq]
  split
  · rename_i h; rw [if_pos (hkey.1 h)]
  · rename_i h; rw [if_neg (hkey.not.1 h)]

theorem unlink_tends (id : BlockId) (depth : ℕ) (v : Volume) :
    Tends id (fun d => d = depth) (fun _ => False) v (unlink id depth v) where
  sweeps := by
    refine ⟨?_, ?_, fun _ h => h, fun _ _ _ h => h.2.elim, fun _ h => .inl h⟩
    · intro b d hL _
      rw [file_unlink, if_neg hL]
    · rintro b d (h | h)
      · rw [file_unlink, if_pos h]
      · exact h.2.elim
  other b hb := by
    have hfile : file (unlink id depth v) b = file v b := by
      funext d
      rw [file_unlink, if_neg fun h => hb h.1]
    unfold slice
    rw [hfile]
    rfl
  framed := ⟨rfl, rfl, rfl⟩

theorem quarantineBlock_tends (id : BlockId) (depth : ℕ) (v : Volume) :
    Tends id (fun _ => False) (fun d => d = depth) v (quarantineBlock id depth v) := by
  cases hget : file v id depth with
  | none =>
    have hsame : quarantineBlock id depth v = v := by
      unfold quarantineBlock
      rw [show v.store.files.get (toLex (id, depth)) = none from hget]
    rw [hsame]
    refine ⟨⟨fun _ _ _ _ => rfl, ?_, fun _ h => h, ?_, fun _ h => .inl h⟩, fun _ _ => rfl, .refl v⟩
    · rintro b d (h | ⟨rfl, rfl⟩)
      · exact h.2.elim
      · exact hget
    · rintro b d bytes ⟨rfl, rfl⟩ _ hf
      cases hget.symm.trans hf
  | some bytes =>
    have hmoved : quarantineBlock id depth v = { unlink id depth v with quarantine := v.quarantine ++ [bytes] } := by
      unfold quarantineBlock
      rw [show v.store.files.get (toLex (id, depth)) = some bytes from hget]
    have hfile : ∀ b d, file (quarantineBlock id depth v) b d = file (unlink id depth v) b d := fun b d => by
      rw [hmoved]; rfl
    have hquarantine : (quarantineBlock id depth v).quarantine = v.quarantine ++ [bytes] := by rw [hmoved]
    refine ⟨⟨?_, ?_, ?_, ?_, ?_⟩, ?_, ?_⟩
    · intro b d _ hM
      rw [hfile, file_unlink, if_neg hM]
    · rintro b d (h | h)
      · exact h.2.elim
      · rw [hfile, file_unlink, if_pos h]
    · intro bytes' h
      rw [hquarantine]
      exact mem_append_left _ h
    · rintro b d bytes' ⟨rfl, rfl⟩ _ hf
      rw [hget] at hf
      cases hf
      rw [hquarantine]
      exact mem_append_right _ (mem_singleton_self _)
    · intro bytes' h
      rw [hquarantine] at h
      rcases mem_append.1 h with h | h
      · exact .inl h
      · rw [mem_singleton.1 h]
        exact .inr ⟨id, depth, ⟨rfl, rfl⟩, hget⟩
    · intro b hb
      rw [hmoved]
      exact (unlink_tends id depth v).other b hb
    · rw [hmoved]
      exact ⟨rfl, rfl, rfl⟩

/-! ## Records -/

theorem recordOf_congr {s s' : Store} {id : BlockId} (h : s'.blocks.get id = s.blocks.get id) :
    recordOf s' id = recordOf s id := by
  unfold recordOf
  rw [h]

theorem recordOf_of_slice {v v' : Volume} {id : BlockId} (h : slice v' id = slice v id) :
    recordOf v'.store id = recordOf v.store id := recordOf_congr (Prod.mk.inj h).1

theorem file_of_slice {v v' : Volume} {id : BlockId} (h : slice v' id = slice v id) : file v' id = file v id :=
  (Prod.mk.inj h).2

theorem recordOf_putRecord (id : BlockId) (block : Block) (v : Volume) :
    recordOf (putRecord id block v).store id = some block := by
  unfold recordOf putRecord onStore
  simp only [get_insert_self]

theorem putRecord_tends (id : BlockId) (block : Block) (v : Volume) :
    Tends id (fun _ => False) (fun _ => False) v (putRecord id block v) :=
  tends_of_files rfl (fun _ hb => get_insert_of_ne _ _ hb) rfl ⟨rfl, rfl, rfl⟩

/-- A record with the flag. -/
def degrade (block : Block) : Block := { block with degraded := true }

/-- A record without the flag. -/
def unflag (block : Block) : Block := { block with degraded := false }

/-- The same record, up to the flag. -/
def Flagged (r r' : Option Block) : Prop := r'.map unflag = r.map unflag

theorem Flagged.some {r' : Option Block} (h : Flagged (some block) r') :
    ∃ flag, r' = some { block with degraded := flag } := by
  unfold Flagged at h
  obtain ⟨block', rfl, hu⟩ := Option.map_eq_some_iff.1 h
  refine ⟨block'.degraded, congrArg Option.some ?_⟩
  obtain ⟨_, _, _, _, _⟩ := block
  obtain ⟨_, _, _, _, _⟩ := block'
  simp_all [unflag]

theorem markDegraded_tends (id : BlockId) (v : Volume) :
    Tends id (fun _ => False) (fun _ => False) v (markDegraded id v) := by
  unfold markDegraded
  split
  · split
    · exact Tends.refl id v
    · exact putRecord_tends id _ v
  · exact Tends.refl id v

theorem recordOf_markDegraded (id : BlockId) (v : Volume) :
    recordOf (markDegraded id v).store id = (recordOf v.store id).map degrade := by
  unfold markDegraded
  split
  · rename_i block hblock
    split
    · rename_i hflag
      have hsame : degrade block = block := by
        obtain ⟨_, _, _, _, _⟩ := block
        simp_all [degrade]
      rw [hblock, Option.map_some, hsame]
    · rw [recordOf_putRecord, hblock]; rfl
  · rename_i hnone
    rw [hnone]; rfl

/-- From `v` to `v'` the records of `D` are flagged, and no other changes. -/
def Degrades (D : BlockId → Prop) (v v' : Volume) : Prop :=
  ∀ id, (D id → recordOf v'.store id = (recordOf v.store id).map degrade) ∧
    (¬ D id → recordOf v'.store id = recordOf v.store id)

theorem Degrades.refl (v : Volume) : Degrades (fun _ => False) v v := fun _ => ⟨False.elim, fun _ => rfl⟩

theorem Degrades.congr {D D' : BlockId → Prop} {v v' : Volume} (h : Degrades D v v') (hD : ∀ id, D id ↔ D' id) :
    Degrades D' v v' := by
  obtain rfl : D = D' := funext fun id => propext (hD id)
  exact h

theorem Degrades.trans {D D' : BlockId → Prop} {v v1 v2 : Volume} (h : Degrades D v v1) (h' : Degrades D' v1 v2) :
    Degrades (fun id => D id ∨ D' id) v v2 := by
  intro id
  constructor
  · intro hD
    by_cases hD' : D' id
    · rw [(h' id).1 hD']
      by_cases hD1 : D id
      · rw [(h id).1 hD1, Option.map_map]; rfl
      · rw [(h id).2 hD1]
    · rw [(h' id).2 hD', (h id).1 (hD.resolve_right hD')]
  · intro hD
    push Not at hD
    rw [(h' id).2 hD.2, (h id).2 hD.1]

theorem Degrades.flagged {D : BlockId → Prop} {v v' : Volume} (h : Degrades D v v') (id : BlockId) :
    Flagged (recordOf v.store id) (recordOf v'.store id) := by
  unfold Flagged
  by_cases hD : D id
  · rw [(h id).1 hD, Option.map_map]; rfl
  · rw [(h id).2 hD]

theorem markDegraded_degrades (id : BlockId) (v : Volume) : Degrades (fun b => b = id) v (markDegraded id v) := by
  intro b
  constructor
  · rintro rfl
    exact recordOf_markDegraded b v
  · intro hb
    exact recordOf_of_slice ((markDegraded_tends id v).other b hb)

theorem blocks_quarantineBlock (id : BlockId) (depth : ℕ) (v : Volume) :
    (quarantineBlock id depth v).store.blocks = v.store.blocks := by
  unfold quarantineBlock
  split <;> rfl

theorem file_quarantineBlock (id : BlockId) {depth d : ℕ} (v : Volume) (hd : d ≠ depth) :
    file (quarantineBlock id depth v) id d = file v id d := by
  unfold quarantineBlock
  split
  · exact (file_unlink id id depth d v).trans (if_neg fun h => hd h.2)
  · rfl

/-! ## Actions -/

/-- `quarantine_corrupt`. -/
theorem quarantineCorrupt_tends (id : BlockId) (depth : ℕ) (v : Volume) :
    Tends id (fun _ => False) (fun d => d = depth) v (quarantineCorrupt id depth v) :=
  ((quarantineBlock_tends id depth v).trans (markDegraded_tends id _)).congr (fun _ => or_self_iff)
    fun _ => or_iff_left not_false

theorem quarantineCorrupt_degrades (id : BlockId) (depth : ℕ) (v : Volume) :
    Degrades (fun b => b = id) v (quarantineCorrupt id depth v) := by
  intro b
  have hsame : recordOf (quarantineBlock id depth v).store b = recordOf v.store b :=
    recordOf_congr (congrArg (OrdMap.get · b) (blocks_quarantineBlock id depth v))
  rw [← hsame]
  exact markDegraded_degrades id (quarantineBlock id depth v) b

/-- A copy that hashes to its address. -/
def Good (c : Config) (id : BlockId) (f : ℕ → Option Bytes) (d : ℕ) : Prop := ∃ bytes, f d = some bytes ∧ c.hash bytes = id

/-- A copy that does not. -/
def Bad (c : Config) (id : BlockId) (f : ℕ → Option Bytes) (d : ℕ) : Prop := ∃ bytes, f d = some bytes ∧ c.hash bytes ≠ id

theorem bad_iff {c : Config} {id : BlockId} : Bad c id f d ↔ (f d).isSome ∧ ¬ Good c id f d := by
  unfold Good Bad
  cases f d <;> simp

theorem Good.not_bad {c : Config} {id : BlockId} (h : Good c id f d) : ¬ Bad c id f d := fun hbad => (bad_iff.1 hbad).2 h

/-- The copies an adoption leaves behind. -/
theorem unlinkAll_tends (id : BlockId) : ∀ (ds : List ℕ) (v : Volume), (∀ d ∈ ds, diskDepth id d = d) →
    Tends id (fun d => d ∈ ds) (fun _ => False) v (ds.foldl (fun v d => unlink id (diskDepth id d) v) v) ∧
      (ds.foldl (fun v d => unlink id (diskDepth id d) v) v).store.blocks = v.store.blocks := by
  intro ds
  induction ds with
  | nil =>
    intro v _
    exact ⟨(Tends.refl id v).congr (fun d => by simp) fun _ => Iff.rfl, rfl⟩
  | cons d ds ih =>
    intro v hdisk
    obtain ⟨ht, hb⟩ := ih (unlink id (diskDepth id d) v) fun d' hd' => hdisk d' (mem_cons_of_mem _ hd')
    refine ⟨((unlink_tends id (diskDepth id d) v).trans ht).congr ?_ fun _ => or_self_iff, hb⟩
    intro d'
    rw [hdisk d mem_cons_self, mem_cons]

/-- What an adoption from the candidates `ds` unlinks: those behind a good one. -/
def Overtaken (c : Config) (id : BlockId) (f : ℕ → Option Bytes) (ds : List ℕ) (d : ℕ) : Prop :=
  d ∈ ds ∧ ∃ d' ∈ ds, d' < d ∧ Good c id f d'

/-- What it sets aside: those that are not good, up to the first that is. -/
def PassedOver (c : Config) (id : BlockId) (f : ℕ → Option Bytes) (ds : List ℕ) (d : ℕ) : Prop :=
  d ∈ ds ∧ Bad c id f d ∧ ∀ d' ∈ ds, d' < d → ¬ Good c id f d'

/-- The candidate it adopts. -/
def Adopted (c : Config) (id : BlockId) (f : ℕ → Option Bytes) (ds : List ℕ) (d : ℕ) : Prop :=
  d ∈ ds ∧ Good c id f d ∧ ∀ d' ∈ ds, d' < d → ¬ Good c id f d'

/-- The notions only look at the candidates. -/
theorem good_congr {c : Config} {id : BlockId} (h : f' d = f d) : Good c id f' d ↔ Good c id f d := by
  unfold Good
  rw [h]

theorem bad_congr {c : Config} {id : BlockId} (h : f' d = f d) : Bad c id f' d ↔ Bad c id f d := by
  unfold Bad
  rw [h]

/-- Candidates are set aside one after the other, as far as they are there. -/
def setAside (id : BlockId) (ds : List ℕ) (v : Volume) : Volume := ds.foldl (fun v d => quarantineBlock id d v) v

theorem setAside_tends (id : BlockId) : ∀ (ds : List ℕ) (v : Volume), ds.Pairwise (· < ·) →
    Tends id (fun _ => False) (fun d => d ∈ ds ∧ (file v id d).isSome) v (setAside id ds v) ∧
      (setAside id ds v).store.blocks = v.store.blocks := by
  intro ds
  induction ds with
  | nil =>
    intro v _
    exact ⟨(Tends.refl id v).congr (fun _ => Iff.rfl) fun d => by simp, rfl⟩
  | cons d ds ih =>
    intro v hsorted
    obtain ⟨hlt, hsorted⟩ := pairwise_cons.1 hsorted
    obtain ⟨ht, hblocks⟩ := ih (quarantineBlock id d v) hsorted
    have hfirst : Tends id (fun _ => False) (fun e => e = d ∧ (file v id e).isSome) v (quarantineBlock id d v) := by
      cases hget : file v id d with
      | none =>
        have hsame : quarantineBlock id d v = v := by
          unfold quarantineBlock
          rw [show v.store.files.get (toLex (id, d)) = none from hget]
        rw [hsame]
        refine (Tends.refl id v).congr (fun _ => Iff.rfl) fun e => ⟨False.elim, ?_⟩
        rintro ⟨rfl, hsome⟩
        rw [hget] at hsome
        cases hsome
      | some bytes =>
        refine (quarantineBlock_tends id d v).congr (fun _ => Iff.rfl) fun e => (and_iff_left_of_imp ?_).symm
        rintro rfl
        exact Option.isSome_of_eq_some hget
    refine ⟨(hfirst.trans ht).congr (fun _ => or_self_iff) fun e => ?_, hblocks.trans (blocks_quarantineBlock id d v)⟩
    rw [mem_cons, or_and_right]
    refine or_congr_right (and_congr_right fun he => ?_)
    rw [file_quarantineBlock id v (ne_of_gt (hlt e he))]

section Adoption

variable (c : Config) (id : BlockId) (record : Block)

/-- A candidate that is not good is passed over. -/
theorem adoptFrom_pass {d : ℕ} {v : Volume} (hdisk : diskDepth id d = d) (hgood : ¬ Good c id (file v id) d) (ds : List ℕ)
    (quarantined : Bool) : adoptFrom c id record (d :: ds) quarantined v =
      adoptFrom c id record ds (quarantined || (file v id d).isSome) (quarantineBlock id d v) := by
  rw [adoptFrom, hdisk]
  cases hget : v.store.files.get (toLex (id, d)) with
  | none => simp [file, hget, quarantineBlock]
  | some bytes =>
    have hhash : c.hash bytes ≠ id := fun hhash => hgood ⟨bytes, hget, hhash⟩
    simp [file, hget, hhash]

/-- **The loop of `adopt_orphan` over candidates in ascending order**: it ends with all of them set aside, or at the first
that is good. -/
theorem adoptFrom_cases : ∀ (ds : List ℕ) (quarantined : Bool) (v : Volume), ds.Pairwise (· < ·) →
    (∀ d ∈ ds, diskDepth id d = d) →
    ((∀ d ∈ ds, ¬ Good c id (file v id) d) ∧ ∃ flag : Bool, adoptFrom c id record ds quarantined v =
        (if flag then markDegraded id (setAside id ds v) else setAside id ds v) ∧
        (quarantined = true ∨ (∃ d ∈ ds, (file v id d).isSome) → flag = true)) ∨
      ∃ pre d rest, ds = pre ++ d :: rest ∧ (∀ e ∈ pre, ¬ Good c id (file v id) e) ∧ Good c id (file v id) d ∧
        adoptFrom c id record ds quarantined v = rest.foldl (fun v d => unlink id (diskDepth id d) v)
          (putRecord id { record with depth := d } (setAside id pre v)) := by
  intro ds
  induction ds with
  | nil => exact fun quarantined v _ _ => .inl ⟨nofun, quarantined, rfl, fun h => h.resolve_right nofun⟩
  | cons d ds ih =>
    intro quarantined v hsorted hdisk
    obtain ⟨hlt, hsorted⟩ := pairwise_cons.1 hsorted
    obtain ⟨hd, hdisk⟩ := forall_mem_cons.1 hdisk
    by_cases hgood : Good c id (file v id) d
    · refine .inr ⟨[], d, ds, rfl, nofun, hgood, ?_⟩
      obtain ⟨bytes, hget, hhash⟩ := hgood
      rw [adoptFrom, hd, show v.store.files.get (toLex (id, d)) = some bytes from hget]
      exact if_neg (not_not.2 hhash)
    -- the others are as they were
    have hfile : ∀ e ∈ ds, file (quarantineBlock id d v) id e = file v id e := fun e he =>
      file_quarantineBlock id v (ne_of_gt (hlt e he))
    rw [adoptFrom_pass c id record hd hgood]
    rcases ih (quarantined || (file v id d).isSome) (quarantineBlock id d v) hsorted hdisk with
      ⟨hno, flag, heq, hflag⟩ | ⟨pre, e, rest, rfl, hpre, hgood', heq⟩
    · refine .inl ⟨forall_mem_cons.2 ⟨hgood, fun e he => (good_congr (hfile e he)).not.1 (hno e he)⟩, flag, heq, ?_⟩
      rintro (hq | ⟨e, he, hsome⟩)
      · exact hflag (.inl (by rw [hq]; rfl))
      · rcases mem_cons.1 he with rfl | he
        · exact hflag (.inl (by rw [hsome, Bool.or_true]))
        · exact hflag (.inr ⟨e, he, by rwa [hfile e he]⟩)
    · have hmem : e ∈ pre ++ e :: rest := mem_append_right _ mem_cons_self
      refine .inr ⟨d :: pre, e, rest, rfl, forall_mem_cons.2 ⟨hgood, fun e' he' => ?_⟩,
        (good_congr (hfile e hmem)).1 hgood', heq⟩
      exact (good_congr (hfile e' (mem_append_left _ he'))).not.1 (hpre e' he')

theorem adoptFrom_tends {ds : List ℕ} (quarantined : Bool) (v : Volume) (hsorted : ds.Pairwise (· < ·))
    (hdisk : ∀ d ∈ ds, diskDepth id d = d) :
    Tends id (Overtaken c id (file v id) ds) (PassedOver c id (file v id) ds) v (adoptFrom c id record ds quarantined v) ∧
      (∀ d, Adopted c id (file v id) ds d →
        recordOf (adoptFrom c id record ds quarantined v).store id = some { record with depth := d }) ∧
      ((∀ d, ¬ Adopted c id (file v id) ds d) →
        Flagged (recordOf v.store id) (recordOf (adoptFrom c id record ds quarantined v).store id)) := by
  rcases adoptFrom_cases c id record ds quarantined v hsorted hdisk with
    ⟨hno, flag, heq, -⟩ | ⟨pre, d, rest, rfl, hpre, hgood, heq⟩
  · obtain ⟨ht, hblocks⟩ := setAside_tends id ds v hsorted
    have hflag : Tends id (fun _ => False) (fun _ => False) (setAside id ds v)
        (if flag then markDegraded id (setAside id ds v) else setAside id ds v) := by
      split
      · exact markDegraded_tends id _
      · exact .refl id _
    rw [heq]
    refine ⟨(ht.trans hflag).congr (fun e => ?_) fun e => ?_, fun e he => (hno e he.1 he.2.1).elim, fun _ => ?_⟩
    · exact ⟨fun h => h.elim False.elim False.elim, fun ⟨_, d, hd, _, hgood⟩ => (hno d hd hgood).elim⟩
    · rw [or_false]
      exact ⟨fun h => ⟨h.1, bad_iff.2 ⟨h.2, hno e h.1⟩, fun d hd _ => hno d hd⟩, fun h => ⟨h.1, (bad_iff.1 h.2.1).1⟩⟩
    · rw [← recordOf_congr (congrArg (OrdMap.get · id) hblocks)]
      split
      · exact (markDegraded_degrades id _).flagged id
      · rfl
  · obtain ⟨hsortedPre, hsortedRest, hacross⟩ := pairwise_append.1 hsorted
    have hafter := (pairwise_cons.1 hsortedRest).1
    have hmem : d ∈ pre ++ d :: rest := mem_append_right _ mem_cons_self
    -- a candidate before the good one is in front of it, one behind it after
    have hplace : ∀ e ∈ pre ++ d :: rest, (e < d → e ∈ pre) ∧ (d < e → e ∈ rest) := by
      intro e he
      rcases mem_append.1 he with he | he
      · exact ⟨fun _ => he, fun hlt => absurd (hacross e he d mem_cons_self) (by omega)⟩
      · rcases mem_cons.1 he with rfl | he
        · exact ⟨fun hlt => absurd hlt (by omega), fun hlt => absurd hlt (by omega)⟩
        · exact ⟨fun hlt => absurd (hafter e he) (by omega), fun _ => he⟩
    have hfirst : ∀ e ∈ pre ++ d :: rest, e < d → ¬ Good c id (file v id) e := fun e he hlt => hpre e ((hplace e he).1 hlt)
    obtain ⟨hset, -⟩ := setAside_tends id pre v hsortedPre
    obtain ⟨hunlink, hblocks⟩ := unlinkAll_tends id rest (putRecord id { record with depth := d } (setAside id pre v))
      fun e he => hdisk e (mem_append_right _ (mem_cons_of_mem _ he))
    rw [heq]
    refine ⟨((hset.trans (putRecord_tends id _ _)).trans hunlink).congr (fun e => ?_) fun e => ?_, ?_, fun h => ?_⟩
    · rw [or_self, false_or]
      constructor
      · exact fun he => ⟨mem_append_right _ (mem_cons_of_mem _ he), d, hmem, hafter e he, hgood⟩
      · rintro ⟨he, d', hd', hlt, hgood'⟩
        exact (hplace e he).2 (lt_of_le_of_lt (not_lt.1 fun h => hfirst d' hd' h hgood') hlt)
    · rw [or_false, or_false]
      constructor
      · rintro ⟨he, hsome⟩
        refine ⟨mem_append_left _ he, bad_iff.2 ⟨hsome, hpre e he⟩, fun d' hd' hlt => hfirst d' hd' ?_⟩
        exact hlt.trans (hacross e he d mem_cons_self)
      · rintro ⟨he, hbad, hno⟩
        obtain ⟨hsome, hbad⟩ := bad_iff.1 hbad
        have hne : e ≠ d := fun heq => hbad (heq ▸ hgood)
        exact ⟨(hplace e he).1 (lt_of_le_of_ne (not_lt.1 fun h => hno d hmem h hgood) hne), hsome⟩
    · rintro e ⟨he, hgood', hno⟩
      have hsame : e = d := le_antisymm (not_lt.1 fun h => hno d hmem h hgood) (not_lt.1 fun h => hfirst e he h hgood')
      rw [hsame, recordOf_congr (congrArg (OrdMap.get · id) hblocks)]
      exact recordOf_putRecord id _ _
    · exact (h d ⟨hmem, hgood, hfirst⟩).elim

end Adoption

/-- The record of `id`, if there is one, is flagged. -/
def IsDegraded (v : Volume) (id : BlockId) : Prop := ∀ block, recordOf v.store id = some block → block.degraded = true

theorem isDegraded_markDegraded (id : BlockId) (v : Volume) : IsDegraded (markDegraded id v) id := by
  intro block h
  rw [recordOf_markDegraded] at h
  obtain ⟨_, -, rfl⟩ := Option.map_eq_some_iff.1 h
  rfl

/-- An adoption that finds no good candidate flags the record, unless there is nothing to set aside. -/
theorem adoptFrom_degrades (c : Config) (id : BlockId) (record : Block) (ds : List ℕ) (quarantined : Bool) (v : Volume)
    (hsorted : ds.Pairwise (· < ·)) (hdisk : ∀ d ∈ ds, diskDepth id d = d) (hgood : ∀ d ∈ ds, ¬ Good c id (file v id) d)
    (h : quarantined = true ∨ (∃ d ∈ ds, (file v id d).isSome) ∨ IsDegraded v id) :
    IsDegraded (adoptFrom c id record ds quarantined v) id := by
  rcases adoptFrom_cases c id record ds quarantined v hsorted hdisk with ⟨-, flag, heq, hflag⟩ | ⟨pre, d, rest, rfl, -, hd, -⟩
  · rw [heq]
    split
    · exact isDegraded_markDegraded id _
    rename_i hnot
    rcases or_assoc.2 h with h | h
    · exact (hnot (hflag h)).elim
    · unfold IsDegraded
      rwa [recordOf_congr (congrArg (OrdMap.get · id) (setAside_tends id ds v hsorted).2)]
  · exact (hgood d (mem_append_right _ mem_cons_self) hd).elim

/-- `adopt_orphan` for a record whose own file is not there. -/
theorem adoptOrphan_tends (c : Config) {id : BlockId} {record : Block} {ds : List ℕ} {v : Volume}
    (hrecord : recordOf v.store id = some record) (hown : isFile v.store id record.depth = false)
    (hsorted : ds.Pairwise (· < ·)) (hdisk : ∀ d ∈ ds, diskDepth id d = d) :
    Tends id (Overtaken c id (file v id) ds) (PassedOver c id (file v id) ds) v (adoptOrphan c id ds v) ∧
      (∀ d, Adopted c id (file v id) ds d → recordOf (adoptOrphan c id ds v).store id = some { record with depth := d }) ∧
      ((∀ d, ¬ Adopted c id (file v id) ds d) → Flagged (some record) (recordOf (adoptOrphan c id ds v).store id)) := by
  have h := adoptFrom_tends c id record false v hsorted hdisk
  rw [hrecord] at h
  unfold adoptOrphan
  simpa only [hrecord, hown, Bool.false_eq_true, if_false] using h

/-- `set_rc`. -/
theorem setRc_tends (id : BlockId) (holders : ℕ) (v : Volume) :
    Tends id (fun d => holders = 0 ∧ ∃ record, recordOf v.store id = some record ∧ record.rc ≠ 0 ∧
      d = diskDepth id record.depth) (fun _ => False) v (setRc id holders v) := by
  unfold setRc
  split
  · rename_i hnone
    refine (Tends.refl id v).congr (fun d => ⟨False.elim, ?_⟩) fun _ => Iff.rfl
    rintro ⟨-, record, hrecord, -⟩
    cases hnone.symm.trans hrecord
  rename_i record hrecord
  split
  · rename_i hrc
    refine (Tends.refl id v).congr (fun d => ⟨False.elim, ?_⟩) fun _ => Iff.rfl
    rintro ⟨rfl, record', hrecord', hne, -⟩
    cases hrecord.symm.trans hrecord'
    exact hne hrc
  rename_i hrc
  split
  · rename_i hzero
    have herase : Tends id (fun _ => False) (fun _ => False) v
        (onStore (fun s => { s with blocks := s.blocks.erase id }) v) :=
      tends_of_files rfl (fun _ hb => get_erase_of_ne _ hb) rfl ⟨rfl, rfl, rfl⟩
    refine (herase.trans (unlink_tends id _ _)).congr ?_ fun _ => or_self_iff
    intro d
    rw [false_or]
    constructor
    · exact fun hd => ⟨hzero, record, hrecord, by omega, hd⟩
    · rintro ⟨-, record', hrecord', -, hd⟩
      cases hrecord.symm.trans hrecord'
      exact hd
  · rename_i hpos
    exact (putRecord_tends id _ v).congr (fun d => ⟨False.elim, fun h => hpos h.1⟩) fun _ => Iff.rfl

/-- What a recount that finds `holders` references makes of a record. -/
def recounted (holders : ℕ) (block : Block) : Option Block :=
  if block.rc = holders then some block else if holders = 0 then none else some { block with rc := holders }

theorem recordOf_setRc (id : BlockId) (holders : ℕ) (v : Volume) :
    recordOf (setRc id holders v).store id = (recordOf v.store id).bind (recounted holders) := by
  unfold setRc
  split
  · rename_i hnone
    rw [hnone]; rfl
  rename_i record hrecord
  rw [hrecord, Option.bind_some]
  unfold recounted
  split
  · exact hrecord
  · split
    · simp only [recordOf, unlink, onStore, get_erase_self]
    · exact recordOf_putRecord id _ v

/-! ## Records that do not decode -/

/-- From `v` to `v'` what does not decode stays as it is, and a record stays one or goes. -/
def Legible (v v' : Volume) : Prop :=
  ∀ id, v'.store.blocks.get id =
    if (recordOf v.store id).isSome then (recordOf v'.store id).map .record else v.store.blocks.get id

theorem recordOf_eq_some {s : Store} {id : BlockId} :
    recordOf s id = some block ↔ s.blocks.get id = some (.record block) := by
  unfold recordOf
  constructor
  · intro h
    split at h
    · rename_i block' hget
      cases h
      exact hget
    · cases h
    · cases h
  · intro h
    rw [h]

theorem Legible.of_blocks {v v' : Volume} (h : v'.store.blocks = v.store.blocks) : Legible v v' := by
  intro id
  rw [recordOf_congr (congrArg (OrdMap.get · id) h), h]
  cases hrecord : recordOf v.store id with
  | none => rfl
  | some block => exact recordOf_eq_some.1 hrecord

theorem Legible.refl (v : Volume) : Legible v v := .of_blocks rfl

theorem Legible.none {v v' : Volume} (h : Legible v v') {id : BlockId} (hnone : recordOf v.store id = none) :
    v'.store.blocks.get id = v.store.blocks.get id := by
  have := h id
  rwa [hnone] at this

theorem Legible.some {v v' : Volume} (h : Legible v v') {id : BlockId} (hsome : recordOf v.store id = some block) : v'.store.blocks.get id = (recordOf v'.store id).map .record := by
  have := h id
  rwa [hsome] at this

theorem Legible.trans {v v1 v2 : Volume} (h : Legible v v1) (h' : Legible v1 v2) : Legible v v2 := by
  intro id
  cases hrecord : recordOf v.store id with
  | none =>
    have h1 := h.none hrecord
    exact (h'.none ((recordOf_congr h1).trans hrecord)).trans h1
  | some block =>
    have h1 := h.some hrecord
    cases hrecord1 : recordOf v1.store id with
    | none =>
      have h2 : v2.store.blocks.get id = v1.store.blocks.get id := h'.none hrecord1
      have hgone : v2.store.blocks.get id = (recordOf v2.store id).map .record := by
        rw [recordOf_congr h2, hrecord1, h2, h1, hrecord1]
      exact hgone
    | some block1 => exact h'.some hrecord1

/-- A record that is written over. -/
theorem legible_putRecord {v : Volume} {id : BlockId} (block : Block) (h : (recordOf v.store id).isSome) :
    Legible v (putRecord id block v) := by
  intro b
  by_cases hb : b = id
  · rw [hb, if_pos h, recordOf_putRecord]
    exact get_insert_self _ _ _
  · have hget : (putRecord id block v).store.blocks.get b = v.store.blocks.get b := get_insert_of_ne _ _ hb
    rw [recordOf_congr hget, hget]
    exact Legible.refl v b

theorem legible_markDegraded (id : BlockId) (v : Volume) : Legible v (markDegraded id v) := by
  unfold markDegraded
  split
  · rename_i hsome
    split
    · exact Legible.refl v
    · exact legible_putRecord _ (by rw [hsome]; rfl)
  · exact Legible.refl v

theorem legible_adoptFrom (c : Config) (id : BlockId) (record : Block) : ∀ (ds : List ℕ) (quarantined : Bool) (v : Volume),
    (recordOf v.store id).isSome → Legible v (adoptFrom c id record ds quarantined v) := by
  intro ds
  induction ds with
  | nil =>
    intro quarantined v _
    unfold adoptFrom
    split
    · exact legible_markDegraded id v
    · exact Legible.refl v
  | cons d ds ih =>
    intro quarantined v h
    unfold adoptFrom
    split
    · exact ih quarantined v h
    split
    · have hblocks := blocks_quarantineBlock id (diskDepth id d) v
      refine (Legible.of_blocks hblocks).trans (ih true _ ?_)
      rwa [recordOf_congr (congrArg (OrdMap.get · id) hblocks)]
    refine (legible_putRecord { record with depth := d } h).trans (Legible.of_blocks ?_)
    generalize putRecord id { record with depth := d } v = w
    clear ih
    induction ds generalizing w with
    | nil => rfl
    | cons d' ds ih => exact ih (unlink id (diskDepth id d') w)

/-- A record that is erased. -/
theorem legible_erase {v w : Volume} {id : BlockId} (hblocks : w.store.blocks = v.store.blocks.erase id)
    (h : (recordOf v.store id).isSome) : Legible v w := by
  intro b
  by_cases hb : b = id
  · have hnone : w.store.blocks.get id = none := by
      rw [hblocks]
      exact get_erase_self _ _
    rw [hb, if_pos h, hnone]
    simp only [recordOf, hnone, Option.map_none]
  · have hget : w.store.blocks.get b = v.store.blocks.get b := by
      rw [hblocks]
      exact get_erase_of_ne _ hb
    rw [recordOf_congr hget, hget]
    exact Legible.refl v b

theorem legible_setRc (id : BlockId) (holders : ℕ) (v : Volume) : Legible v (setRc id holders v) := by
  unfold setRc
  split
  · exact Legible.refl v
  rename_i record hrecord
  have hsome : (recordOf v.store id).isSome := by rw [hrecord]; rfl
  split
  · exact Legible.refl v
  · split
    · exact legible_erase rfl hsome
    · exact legible_putRecord _ hsome

/-- An action of the second round. -/
def RepairAction.OnBlocks : RepairAction → Prop
  | resumeBucketTeardown _ => False
  | reapOrphanPart _ _ => False
  | quarantineCorrupt _ _ => True
  | adoptOrphan _ _ _ => True
  | setRc _ _ _ => True
  | markDegraded _ => True
  | deleteOrphan _ _ => True
  | deleteOffDepth _ _ => True
  | quarantineForeign _ => True

theorem legible_apply (c : Config) (a : RepairAction) (ha : a.OnBlocks) (v : Volume) : Legible v (a.apply c v) := by
  cases a with
  | resumeBucketTeardown bucket | reapOrphanPart storageKey part => exact ha.elim
  | quarantineCorrupt id d =>
    exact (Legible.of_blocks (blocks_quarantineBlock id d v)).trans (legible_markDegraded id _)
  | adoptOrphan id recordDepth ds =>
    show Legible v (Scrub.adoptOrphan c id ds v)
    unfold Scrub.adoptOrphan
    split
    · exact Legible.refl v
    · rename_i record hrecord
      split
      · exact Legible.refl v
      · exact legible_adoptFrom c id record ds false v (by rw [hrecord]; rfl)
  | setRc id planned holders => exact legible_setRc id holders v
  | markDegraded id => exact legible_markDegraded id v
  | deleteOrphan id d | deleteOffDepth id d => exact Legible.of_blocks rfl
  | quarantineForeign path =>
    refine Legible.of_blocks ?_
    show (Scrub.quarantineForeign path v).store.blocks = v.store.blocks
    unfold Scrub.quarantineForeign
    split
    · exact blocks_quarantineBlock _ _ v
    · split
      · split <;> rfl
      · rfl

/-! ## Runs of actions -/

section Runs

variable (c : Config)

@[simp] theorem applyAll_nil (v : Volume) : applyAll c [] v = v := rfl

@[simp] theorem applyAll_cons (a : RepairAction) (l : List RepairAction) (v : Volume) :
    applyAll c (a :: l) v = applyAll c l (a.apply c v) := rfl

theorem applyAll_append (l l' : List RepairAction) (v : Volume) :
    applyAll c (l ++ l') v = applyAll c l' (applyAll c l v) := foldl_append

theorem legible_applyAll : ∀ (l : List RepairAction) (v : Volume), (∀ a ∈ l, a.OnBlocks) → Legible v (applyAll c l v) := by
  intro l
  induction l with
  | nil => exact fun v _ => Legible.refl v
  | cons a l ih =>
    intro v hl
    exact (legible_apply c a (hl a mem_cons_self) v).trans (ih _ fun b hb => hl b (mem_cons_of_mem _ hb))

/-- Actions about distinct blocks: each sees its block as it was before all of them. -/
theorem applyAll_distinct {L M : BlockId → ℕ → Prop} {R : BlockId → Option Block → Prop} {v0 : Volume} :
    ∀ (l : List RepairAction) (v : Volume),
    (∀ a ∈ l, ∃ id, a.block = some id ∧ slice v id = slice v0 id ∧ ∀ v, slice v id = slice v0 id →
      Tends id (L id) (M id) v (a.apply c v) ∧ R id (recordOf (a.apply c v).store id)) →
    (l.Pairwise fun a b => a.block ≠ b.block) →
    Sweeps (fun id d => some id ∈ l.map RepairAction.block ∧ L id d)
        (fun id d => some id ∈ l.map RepairAction.block ∧ M id d) v (applyAll c l v) ∧
      (∀ id, some id ∈ l.map RepairAction.block → R id (recordOf (applyAll c l v).store id)) ∧
      (∀ id, some id ∉ l.map RepairAction.block → slice (applyAll c l v) id = slice v id) ∧
      Framed v (applyAll c l v) := by
  intro l
  induction l with
  | nil =>
    intro v _ _
    refine ⟨(Sweeps.refl v).congr ?_ ?_, ?_, fun _ _ => rfl, .refl v⟩
    · intro id d; simp
    · intro id d; simp
    · intro id h; simp at h
  | cons a l ih =>
    intro v hstep hpair
    obtain ⟨hne, hpair⟩ := pairwise_cons.1 hpair
    obtain ⟨id, hblock, hslice, hact⟩ := hstep a mem_cons_self
    obtain ⟨ht, hR⟩ := hact v hslice
    -- the later actions find their blocks as before
    have hnot : some id ∉ l.map RepairAction.block := by
      intro h
      obtain ⟨b, hb, hbid⟩ := mem_map.1 h
      exact hne b hb (hblock.trans hbid.symm)
    have hrest : ∀ b ∈ l, ∃ id', b.block = some id' ∧ slice (a.apply c v) id' = slice v0 id' ∧
        ∀ v, slice v id' = slice v0 id' →
          Tends id' (L id') (M id') v (b.apply c v) ∧ R id' (recordOf (b.apply c v).store id') := by
      intro b hb
      obtain ⟨id', hb', hs', hact'⟩ := hstep b (mem_cons_of_mem _ hb)
      refine ⟨id', hb', ?_, hact'⟩
      rw [ht.other id', hs']
      rintro rfl
      exact hne b hb (hblock.trans hb'.symm)
    obtain ⟨hsweeps, hRs, hothers, hframed⟩ := ih (a.apply c v) hrest hpair
    have hmem : ∀ b, some b ∈ (a :: l).map RepairAction.block ↔ b = id ∨ some b ∈ l.map RepairAction.block := by
      intro b
      rw [map_cons, mem_cons, hblock, Option.some.injEq]
    rw [applyAll_cons]
    refine ⟨(ht.sweeps.trans hsweeps).congr ?_ ?_, ?_, ?_, ht.framed.trans hframed⟩
    · intro b d
      rw [hmem, or_and_right]
      exact or_congr_left (and_congr_right fun hb => by rw [hb])
    · intro b d
      rw [hmem, or_and_right]
      exact or_congr_left (and_congr_right fun hb => by rw [hb])
    · intro b hb
      rcases (hmem b).1 hb with rfl | hb
      · rw [recordOf_of_slice (hothers b hnot)]
        exact hR
      · exact hRs b hb
    · intro b hb
      have hb' := (hmem b).not.1 hb
      push Not at hb'
      rw [hothers b hb'.2, ht.other b hb'.1]

end Runs

end QssStorage.Scrub
