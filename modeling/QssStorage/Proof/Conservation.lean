import QssStorage.Proof.Uploads

/-!
# No reference is lost

* `lossFree_reachable`: **whatever is interleaved, stopped or crashed, a block's count is
  at least the number of its occurrences in object and part records, and a record that is
  not degraded has its file.**
* `exact_of_finished`: **once operations that met no failure have all returned, counts,
  records and files are exactly what the object records name.**
-/

namespace QssStorage

open Conc Multiset

variable {s : Store} {n : ℕ} {m : Mode} (c : Config)

/-! ## Loss-freedom -/

/-- Every occurrence is counted, every named block has a record, every record that is not
degraded its file. -/
structure LossFree (s : Store) : Prop where
  counted : ∀ b, (objectRefs s + partRefs s).count b ≤ rcOf s b
  recorded : ∀ b ∈ objectRefs s + partRefs s, ∃ blk, s.blocks.get b = some (.record blk) ∧ 1 ≤ blk.rc
  placed : ∀ b blk, s.blocks.get b = some (.record blk) → blk.degraded = false → FileAt s b (diskDepth b blk.depth)

/-- Parts count, nothing is assumed of the store or of the environment. -/
def anyMode : Mode := ⟨true, false, fun _ => True⟩

theorem Core.lossFree {g : Hand} (hparts : m.parts = true) (h : Core m s g) : LossFree s := by
  have hcount : ∀ b, (objectRefs s + partRefs s).count b ≤ rcOf s b := by
    intro b
    rw [h.counts b, named]
    simp only [count_add, hparts, if_true]
    omega
  refine ⟨hcount, ?_, ?_⟩
  · intro b hb
    have hpos : 1 ≤ rcOf s b := le_trans (one_le_count_iff_mem.2 hb) (hcount b)
    unfold rcOf at hpos
    split at hpos
    · rename_i blk hblk
      exact ⟨blk, hblk, hpos⟩
    · omega
  · intro b blk hblk hdeg
    exact h.placed b _ ⟨blk, hblk, hdeg, rfl⟩

/-- All references the block records count. -/
def countedRefs (s : Store) : Multiset BlockId :=
  s.blocks.sum fun b cell =>
    match cell with
    | .record blk => Multiset.replicate blk.rc b
    | .garbage => 0

theorem count_countedRefs (s : Store) (b : BlockId) : (countedRefs s).count b = rcOf s b := by
  unfold countedRefs
  rw [← coe_countAddMonoidHom, OrdMap.map_sum_eq_share _ _ (k := b)]
  · unfold OrdMap.share rcOf
    cases hb : s.blocks.get b with
    | none => rfl
    | some cell =>
      cases cell with
      | garbage => rfl
      | record blk => simp
  · intro b' cell hne
    cases cell with
    | garbage => rfl
    | record blk =>
      rw [coe_countAddMonoidHom, count_replicate, if_neg hne]

/-- All files of the store. -/
def allFiles (s : Store) : Multiset (BlockId × ℕ) := (s.files.entries.map fun e => ofLex e.1 : List (BlockId × ℕ))

theorem mem_allFiles {b : BlockId} {d : ℕ} (h : FileAt s b d) : (b, d) ∈ allFiles s := by
  obtain ⟨bytes, hb⟩ := Option.isSome_iff_exists.1 h
  exact mem_coe.2 (List.mem_map.2 ⟨_, OrdMap.mem_entries.2 hb, rfl⟩)

/-- A loss-free store balances, what nobody names being in nobody's hand. -/
theorem LossFree.core (h : LossFree s) (hrest : s.AtRest) :
    Core anyMode s ⟨countedRefs s - (objectRefs s + partRefs s), allFiles s, 0, 0, 0⟩ := by
  have hwait : waitingRefs s = 0 := by unfold waitingRefs; rw [hrest.2]; rfl
  refine ⟨?_, ?_, fun b d hf => .inr (mem_allFiles hf), ?_, ?_, ?_, ?_, nofun⟩
  · intro b
    have h1 := h.counted b
    rw [named, hwait]
    simp only [anyMode, if_true, add_zero, count_add, count_sub, count_countedRefs] at h1 ⊢
    omega
  · rintro b d ⟨blk, hblk, hdeg, rfl⟩
    exact h.placed b blk hblk hdeg
  · rw [hrest.1]; exact nofun
  · exact fun hm => absurd hm.1 nofun
  · unfold pendingTickets
    rw [hrest.1, hrest.2]
    exact le_refl 0
  · exact ⟨nodup_zero, fun t ht => absurd ht (notMem_zero t)⟩

/-! ## Stops and crashes -/

/-- A stopped thread keeps what it had in hand, but no stripe. -/
theorem ledger_drop {g r : Hand} (h : (ledger n m).inv s (g + r)) : (ledger n m).inv s ({ g with views := 0 } + r) := by
  refine ⟨h.1.congr rfl rfl rfl rfl, ?_, ?_⟩
  · have hnd := h.2.nodup
    rw [Hand.add_views, map_add] at hnd
    rw [Hand.add_views, zero_add]
    exact (nodup_add.1 hnd).2.1
  · intro v hv
    refine h.2.same v ?_
    rw [Hand.add_views, zero_add] at hv
    rw [Hand.add_views]
    exact mem_add.2 (.inr hv)

/-- After a crash the references of outcomes on their way belong to nobody. -/
theorem ledger_restart {g : Hand} (h : (ledger n m).inv s g) :
    (ledger n m).inv s.restart ⟨g.refs + waitingRefs s, g.strays, 0, 0, 0⟩ := by
  refine ⟨⟨?_, h.1.placed, h.1.strays, nofun, ?_, le_refl 0, ?_, fun hm => (h.1.strict hm).congr rfl rfl rfl⟩, ?_, ?_⟩
  · intro b
    have hnamed : named m.parts s.restart + (g.refs + waitingRefs s) = named m.parts s + g.refs := by
      unfold named
      have hwait : waitingRefs s.restart = 0 := rfl
      rw [hwait, add_zero, add_comm g.refs, ← add_assoc]
      rfl
    simp only [hnamed]
    exact h.1.counts b
  · intro _ t r hr
    simp only [Store.restart, OrdMap.get_empty] at hr
    cases hr
  · exact ⟨nodup_zero, fun t ht => absurd ht (notMem_zero t)⟩
  · exact nodup_zero
  · exact fun v hv => absurd hv (notMem_zero v)

theorem ledger_survives (m : Mode) : (ledger c.stripes m).Survives (storeSystem c) where
  drop _ _ _ h := ⟨_, rfl, ledger_drop h⟩
  reset _ _ _ h := ⟨_, rfl, ledger_restart h⟩

/-! ## The operations -/

theorem idle_of_leak {α : Type} {p : StoreProg α} {Q : α → Hand → Prop} (h : wp (ledger n m) p Q 0)
    (hQ : ∀ a g, Q a g → g.views = 0) : Idle n m p := wp_mono hQ h

/-- Every operation keeps the ledger. -/
theorem StoreOp.idle (hparts : m.parts = true) (o : StoreOp) : Idle c.stripes m (o.prog c) := by
  have hdone : ∀ {α : Type} {p : StoreProg (Except Err α)}, wp (ledger c.stripes m) p (Done m) 0 →
      Idle c.stripes m (p.bind fun _ => .ret ()) :=
    fun h => (idle_of_leak h fun _ _ hg => hg.1.1).bind fun _ => Idle.ret _
  cases o with
  | put bucket key body len =>
    refine Idle.bind (idle_of_leak (storeSingleObjectAndMeta_ok c bucket key body len) ?_) fun _ => Idle.ret _
    exact fun _ _ hg => hg.1
  | putInline bucket key data => exact hdone (storeInlinedObject_ok c bucket key data)
  | delete bucket key => exact hdone (deleteObject_ok c bucket key)
  | clone sb sk db dk => exact hdone (cloneObjectByReference_ok c sb sk db dk)
  | createUpload bucket key uploadId => exact (createUpload_idle bucket key uploadId).bind fun _ => Idle.ret _
  | uploadPart bucket key uploadId k body len md5 =>
    exact (uploadPart_idle c hparts bucket key uploadId k body len md5).bind fun _ => Idle.ret _
  | complete bucket key uploadId upload =>
    exact (completeMultipartUpload_idle c hparts bucket key uploadId upload).bind fun _ => Idle.ret _
  | abort fuel bucket key uploadId =>
    exact (abortMultipartUpload_idle c hparts fuel bucket key uploadId).bind fun _ => Idle.ret _
  | sweep fuel ttl => exact (sweepStaleUploads_idle c hparts fuel ttl).bind fun _ => Idle.ret _
  | round more => exact idle_of_leak (commitGroup_ok c more) fun _ _ hg => hg.1

/-- **Loss-freedom.** In every state that any interleaving of any number of operations
reaches, with any of them stopped or failing at any step and crashes anywhere, each block
is counted at least as often as object and part records name it, each named block has a
record, and each record that is not degraded has its file: as long as no count passes what
its `usize` holds. -/
theorem lossFree_reachable (c : Config) (s0 : Store) (h0 : LossFree s0) (hrest : s0.AtRest)
    (w : Pool Store Choice ℕ Unit)
    (hw : Pool.Reach (storeSystem c) (Pool.Into (storeSystem c) Store.Fits) (Pool.start s0) w) :
    LossFree w.st := by
  obtain ⟨g, hg⟩ := Pool.Reach.inv (P := ledger c.stripes anyMode) (Q := fun _ g => g.views = 0)
    (ledger_survives c anyMode) (fun _ o _ => o.idle c rfl)
    (fun _ _ _ _ hin hn => ⟨trivial, hin _ hn⟩) rfl
    ⟨h0.core hrest, nodup_zero, fun v hv => absurd hv (notMem_zero v)⟩ hw
  exact hg.1.lossFree rfl

theorem lossFree_empty : LossFree Store.empty :=
  ⟨fun _ => le_refl 0, fun b hb => absurd hb (notMem_zero b), nofun⟩

/-- A PUT of `abc`, and another one that is in flight when the store crashes. -/
def putAndCrash : List (Move StoreOp Choice) :=
  .spawn (.put [98] [107] [some abc] 3) :: List.replicate 12 (.run 0 steady) ++
    .spawn (.put [98] [108] [some abc] 3) :: List.replicate 8 (.run 1 steady) ++ [.crash]

/-- The reference of the second PUT is left behind; nothing is lost. -/
theorem lossFree_after_crash : ∃ w,
    Pool.execInto (storeSystem abcConfig) Store.Fits putAndCrash (Pool.start Store.empty) = some w ∧
      (rcOf w.st abcId, (objectRefs w.st).count abcId) = (2, 1) ∧ LossFree w.st := by
  have hrun : (Pool.execInto (storeSystem abcConfig) Store.Fits putAndCrash
      (Pool.start Store.empty)).map (fun w => (rcOf w.st abcId, (objectRefs w.st).count abcId)) =
        some (2, 1) := by decide +kernel
  obtain ⟨w, hw, hcounts⟩ := Option.map_eq_some_iff.1 hrun
  exact ⟨w, hw, hcounts, lossFree_reachable abcConfig Store.empty lossFree_empty ⟨rfl, rfl⟩ w
    (Pool.Reach.refl.execInto (fun _ _ _ h => h) hw)⟩

/-! ## Exactness -/

/-- Counts, records and files are exactly what the object records name, and every record
decodes. (A record flagged degraded says that its file is gone.) -/
structure Exact (s : Store) : Prop where
  named : ∀ b ∈ objectRefs s, ∃ blk, s.blocks.get b = some (.record blk) ∧ blk.rc = (objectRefs s).count b ∧
    blk.degraded = false ∧ ∀ d, FileAt s b d ↔ d = diskDepth b blk.depth
  absent : ∀ b, b ∉ objectRefs s → s.blocks.get b = none ∧ ∀ d, ¬ FileAt s b d
  objects : ∀ bucket key cell, (s.tree bucket).get key = some cell → ∃ o, cell = .record o
  usage : ∀ bucket cell, s.usage.get bucket = some cell → ∃ n, cell = .record n

/-- An exact start, and no failure. -/
def cleanMode : Mode := ⟨false, true, Choice.Fine⟩

theorem cleanMode_clean : cleanMode.Clean := ⟨rfl, fun _ h => h⟩

theorem Exact.core (h : Exact s) (hrest : s.AtRest) : Core cleanMode s 0 := by
  have hwait : waitingRefs s = 0 := by unfold waitingRefs; rw [hrest.2]; rfl
  have hnamed : QssStorage.named cleanMode.parts s = objectRefs s := by
    simp [QssStorage.named, hwait, cleanMode]
  -- a record counts the occurrences of its block
  have hrec : ∀ b blk, s.blocks.get b = some (.record blk) → b ∈ objectRefs s := by
    intro b blk hb
    by_contra hmem
    cases ((h.absent b hmem).1).symm.trans hb
  refine ⟨?_, ?_, ?_, ?_, ?_, ?_, ?_, fun _ => ⟨?_, h.objects, h.usage⟩⟩
  · intro b
    rw [hnamed, Hand.zero_refs, add_zero]
    by_cases hmem : b ∈ objectRefs s
    · obtain ⟨blk, hblk, hrc, -⟩ := h.named b hmem
      rw [rcOf_record hblk, hrc]
    · unfold rcOf
      rw [(h.absent b hmem).1, count_eq_zero_of_notMem hmem]
  · rintro b d ⟨blk, hblk, -, rfl⟩
    obtain ⟨blk', hblk', -, -, hfile⟩ := h.named b (hrec b blk hblk)
    cases hblk.symm.trans hblk'
    exact (hfile _).2 rfl
  · intro b d hf
    by_cases hmem : b ∈ objectRefs s
    · obtain ⟨blk, hblk, -, hdeg, hfile⟩ := h.named b hmem
      exact .inl ⟨blk, hblk, hdeg, ((hfile d).1 hf).symm⟩
    · exact absurd hf ((h.absent b hmem).2 d)
  · rw [hrest.1]; exact nofun
  · intro _ t r hr
    rw [hrest.2, OrdMap.get_empty] at hr
    cases hr
  · unfold pendingTickets
    rw [hrest.1, hrest.2]
    exact le_refl 0
  · exact ⟨nodup_zero, fun t ht => absurd ht (notMem_zero t)⟩
  · intro b cell hb
    have hmem : b ∈ objectRefs s := by
      by_contra hmem
      cases ((h.absent b hmem).1).symm.trans hb
    obtain ⟨blk, hblk, hrc, hdeg, -⟩ := h.named b hmem
    cases hblk.symm.trans hb
    exact ⟨blk, rfl, hdeg, by rw [hrc]; exact one_le_count_iff_mem.2 hmem⟩

theorem Core.exact (h : Core cleanMode s 0) : Exact s := by
  have hS := h.strict rfl
  -- nobody awaits an outcome, so none is on its way
  have hempty : ∀ t, s.replies.get t = none := by
    intro t
    cases hget : s.replies.get t with
    | none => rfl
    | some reply =>
      have hmem : (t, reply.1) ∈ pendingTickets s 0 := by
        unfold pendingTickets
        rw [OrdMap.sum_of_get _ hget]
        simp
      exact absurd (mem_of_le h.pending hmem) (notMem_zero _)
  have hwait : waitingRefs s = 0 := by
    have hnil : s.replies.entries = [] := by
      rw [List.eq_nil_iff_forall_not_mem]
      rintro ⟨t, reply⟩ hmem
      have := OrdMap.mem_entries.1 hmem
      cases (hempty t).symm.trans this
    unfold waitingRefs OrdMap.sum
    rw [hnil]
    rfl
  have hcount : ∀ b, rcOf s b = (objectRefs s).count b := by
    intro b
    rw [h.counts b]
    unfold QssStorage.named
    rw [hwait]
    simp [cleanMode]
  have hfile : ∀ b d, FileAt s b d → LiveAt s b d := fun b d hf =>
    (h.strays b d hf).resolve_right (notMem_zero _)
  refine ⟨?_, ?_, hS.objects, hS.usage⟩
  · intro b hb
    have hpos : 1 ≤ rcOf s b := by rw [hcount]; exact one_le_count_iff_mem.2 hb
    cases hget : s.blocks.get b with
    | none => simp [rcOf, hget] at hpos
    | some cell =>
      obtain ⟨blk, rfl, hdeg, -⟩ := hS.blocks b cell hget
      refine ⟨blk, rfl, by rw [← hcount, rcOf_record hget], hdeg, fun d => ⟨fun hf => ?_, ?_⟩⟩
      · exact (hfile b d hf).unique ⟨blk, hget, hdeg, rfl⟩
      · rintro rfl
        exact h.placed b _ ⟨blk, hget, hdeg, rfl⟩
  · intro b hb
    have hzero : rcOf s b = 0 := by rw [hcount, count_eq_zero_of_notMem hb]
    have hnone : s.blocks.get b = none := by
      cases hget : s.blocks.get b with
      | none => rfl
      | some cell =>
        obtain ⟨blk, rfl, -, hpos⟩ := hS.blocks b cell hget
        rw [rcOf_record hget] at hzero
        omega
    refine ⟨hnone, fun d hf => ?_⟩
    obtain ⟨blk, hblk, -⟩ := hfile b d hf
    cases hnone.symm.trans hblk

/-- PUTs whose body comes through, overwrites, DELETEs, clones and the committer, without
failures, stops or crashes. -/
def FaultFree : Move StoreOp Choice → Prop
  | .spawn (.put _ _ body _) => none ∉ body
  | .spawn (.putInline _ _ _) => True
  | .spawn (.delete _ _) => True
  | .spawn (.clone _ _ _ _) => True
  | .spawn (.round _) => True
  | .spawn _ => False
  | .run _ e => e.Fine
  | .stop _ => False
  | .crash => False

theorem StoreOp.clean (o : StoreOp) (h : FaultFree (.spawn o)) :
    wp (ledger c.stripes cleanMode) (o.prog c) (fun _ g => g = 0) 0 := by
  have hzero : ∀ {g : Hand}, Leak cleanMode g → g = 0 := fun hl => hl.2 cleanMode_clean
  have hdone : ∀ {α : Type} {p : StoreProg (Except Err α)}, wp (ledger c.stripes cleanMode) p (Done cleanMode) 0 →
      wp (ledger c.stripes cleanMode) (p.bind fun _ => .ret ()) (fun _ g => g = 0) 0 :=
    fun h => wp_bind (wp_mono (fun _ _ hg => hzero hg.1) h)
  cases o with
  | put bucket key body len =>
    exact wp_bind (wp_mono (fun _ _ hg => hzero (hg.2 h)) (storeSingleObjectAndMeta_ok c bucket key body len))
  | putInline bucket key data => exact hdone (storeInlinedObject_ok c bucket key data)
  | delete bucket key => exact hdone (deleteObject_ok c bucket key)
  | clone sb sk db dk => exact hdone (cloneObjectByReference_ok c sb sk db dk)
  | round more => exact wp_mono (fun _ _ hg => hzero hg) (commitGroup_ok c more)
  | createUpload | uploadPart | complete | abort | sweep => exact h.elim

/-- **Conservation.** From an exact store, once any interleaving of PUTs, overwrites,
DELETEs and clones that met no failure has come to its end, the store is exact, as long as
no count passed what its `usize` holds. -/
theorem exact_of_finished (c : Config) (s0 : Store) (h0 : Exact s0) (hrest : s0.AtRest)
    (w : Pool Store Choice ℕ Unit)
    (hw : Pool.Reach (storeSystem c)
      (fun w m => FaultFree m ∧ Pool.Into (storeSystem c) Store.Fits w m) (Pool.start s0) w)
    (hfin : w.Finished) : Exact w.st := by
  have howned := Pool.Reach.owned (P := ledger c.stripes cleanMode) (Q := fun _ g => g = 0)
    (fun _ o ho => o.clean c ho.1) (fun _ _ _ _ he hn => ⟨he.1, he.2 _ hn⟩) (fun _ _ h => h.1) (fun _ h => h.1) (map_zero _)
    ⟨h0.core hrest, nodup_zero, fun v hv => absurd hv (notMem_zero v)⟩ hw
  exact (howned.finished hfin fun _ _ h => h).1.exact

theorem exact_empty : Exact Store.empty :=
  ⟨fun b hb => absurd hb (notMem_zero b), fun _ _ => ⟨rfl, nofun⟩, nofun, nofun⟩

/-- A PUT of `abc` that comes in two pieces, overwritten by one that comes whole. -/
def putTwice : List (Move StoreOp Choice) :=
  .spawn (.put [98] [107] [some [97], some [98, 99]] 3) :: List.replicate 12 (.run 0 steady) ++
    .spawn (.put [98] [107] [some abc] 3) :: List.replicate 12 (.run 1 steady)

/-- Both have returned, and one reference is left. -/
theorem exact_after_overwrite : ∃ w,
    Pool.execInto (storeSystem abcConfig) Store.Fits putTwice (Pool.start Store.empty) = some w ∧
      (decide w.Finished, rcOf w.st abcId) = (true, 1) ∧ Exact w.st := by
  have hrun : (Pool.execInto (storeSystem abcConfig) Store.Fits putTwice (Pool.start Store.empty)).map
      (fun w => (decide w.Finished, rcOf w.st abcId)) = some (true, 1) := by decide +kernel
  obtain ⟨w, hw, hdone⟩ := Option.map_eq_some_iff.1 hrun
  refine ⟨w, hw, hdone, exact_of_finished abcConfig Store.empty exact_empty ⟨rfl, rfl⟩ w
    (Pool.Reach.refl.execInto ?_ hw) (of_decide_eq_true (Prod.mk.inj hdone).1)⟩
  refine fun m hm _ hin => ⟨?_, hin⟩
  simp only [putTwice, List.cons_append, List.mem_cons, List.mem_append, List.mem_replicate] at hm
  rcases hm with rfl | ⟨-, rfl⟩ | rfl | ⟨-, rfl⟩
  · simp [FaultFree]
  · exact steady_fine
  · simp [FaultFree]
  · exact steady_fine

end QssStorage
