import QssStorage.Proof.Conservation
import QssStorage.Proof.RoundTrip
import QssStorage.Proof.VerifiedReads

/-!
# What the server stored it can read back

The round trip and the verified reads are stated of states in which the chunks of a record are
on disk (`Intact`) and whatever hashes to an address has the recorded size (`SizesTrue`). Here both
are derived for the server: what is filed is what its names say (`s3_filed`), no reference is
lost, and nothing the server does marks a block as degraded.

* `ServerRun.balanced`: **no task, stop or crash loses a reference or a file.**
* `upload_served`: **a GET of an object that stands answers the body of the acknowledged PUT.**
-/

namespace QssStorage

open Conc Prog

/-! ## Reads of a body -/

section Looks

variable (c : Config)

theorem serveBlocks_looks {ρ : Type} (verifyOnRead : Bool) (check : ρ → ℕ → Option (ℕ × ℕ)) (fuel : ℕ) (o : Object)
    (paths : List (BlockId × Block)) (range : Option ρ) : Looks (serveBlocks c verifyOnRead check fuel o paths range) := by
  unfold serveBlocks
  split
  · exact inherits_looks.bind (collect_looks c fuel _ _) fun _ => inherits_looks.ret _
  · split
    · exact trivial
    · exact inherits_looks.bind (collect_looks c fuel _ _) fun _ => inherits_looks.ret _

end Looks

/-! ## The tasks keep the ledger -/

section Tasks

variable {c : Config} {n : ℕ} {m : Mode} {s : Store} {g : Hand}

/-- A write that leaves the ledger alone. -/
theorem idle_write {f : Store → Store} (hsame : ∀ s b, SameBlock s (f s) b) (hcore : ∀ s g, Core m s g → Core m (f s) g) :
    Idle n m (transact fun s => .ok ((), f s)) := by
  refine wp_transact_free rfl (fun _ _ _ _ h => by cases h) (fun _ => rfl) fun s r hc a s' h => ?_
  cases h
  exact ⟨hsame s, 0, rfl, hcore s _ hc, rfl, fun _ => rfl⟩

theorem Core.setBuckets (h : Core m s g) (rows : OrdMap Bytes (Cell BucketRow)) : Core m { s with buckets := rows } g :=
  h.rebuild rfl rfl rfl rfl rfl h.counts h.placed h.strays fun hm => (h.strict hm).congr rfl rfl rfl

theorem treeOpen_idle (bucket : Bytes) : Idle n m (treeOpen bucket) :=
  idle_write (fun _ _ => ⟨rfl, fun _ => rfl⟩) fun s g hc => by
    have hrefs := objectRefs_setTree s bucket (s.tree bucket)
    exact hc.setTree bucket _ (by rw [add_right_cancel hrefs]) rfl rfl rfl fun hm => (hc.strict hm).objects bucket

theorem removeRow_idle (bucket : Bytes) : Idle n m (removeRow bucket) :=
  idle_write (fun _ _ => ⟨rfl, fun _ => rfl⟩) fun _ _ hc => hc.setBuckets _

theorem insertBucket_idle (bucket : Bytes) (row : BucketRow) : Idle n m (insertBucket bucket row) := by
  unfold insertBucket
  split
  · exact Idle.ret _
  refine inherits_idle.andThen (idle_write (fun _ _ => ⟨rfl, fun _ => rfl⟩) fun _ _ hc => hc.setBuckets _) fun _ =>
    inherits_idle.andThen (treeOpen_idle bucket) fun _ => ?_
  exact idle_write (fun _ _ => ⟨rfl, fun _ => rfl⟩) fun _ _ hc => hc.setUsage bucket 0

/-- A tree goes: what its records named is nobody's now. -/
theorem treeDelete_idle (bucket : Bytes) : Idle n m (treeDelete bucket) := by
  refine wp_transact_free rfl (fun _ _ _ _ h => by cases h) (fun _ => rfl) fun s r hc a s' h => ?_
  cases h
  refine ⟨fun _ => ⟨rfl, fun _ => rfl⟩, Hand.ofRefs (s.trees.share (fun _ t => t.sum fun _ => objectCellRefs) bucket),
    rfl, ?_, rfl, fun _ => rfl⟩
  refine hc.rebuild rfl rfl rfl (by simp [Hand.ofRefs]) (by simp [Hand.ofRefs]) (fun b => ?_) hc.placed
    (fun b d hf => (hc.strays b d hf).imp_right fun h => by simpa [Hand.ofRefs] using h) fun hm => ?_
  · have hrefs : named m.parts { s with trees := s.trees.erase bucket } + (Hand.ofRefs (s.trees.share
        (fun _ t => t.sum fun _ => objectCellRefs) bucket) + r).refs = named m.parts s + (0 + r).refs := by
      have herase := OrdMap.sum_erase (fun _ (t : OrdMap Bytes (Cell Object)) => t.sum fun _ => objectCellRefs) s.trees bucket
      have hswap : ∀ x y z w v : Multiset BlockId, x + y + z + (w + v) = (x + w) + y + z + v := by intros; abel
      simp only [named, objectRefs, Hand.add_refs, Hand.ofRefs, zero_add]
      rw [hswap, herase]
      rfl
    rw [hrefs]
    exact hc.counts b
  · have hS := hc.strict hm
    refine ⟨hS.blocks, fun b key cell hget => hS.objects b key cell ?_, hS.usage⟩
    unfold Store.tree at hget ⊢
    dsimp only at hget
    rw [OrdMap.get_erase] at hget
    split at hget
    · cases hget
    · exact hget

theorem dropBucket_idle (bucket : Bytes) : Idle n m (dropBucket bucket) := by
  refine inherits_idle.andThen (removeRow_idle bucket) fun _ => inherits_idle.andThen ?_ fun _ =>
    inherits_idle.bind (inherits_idle.looks (bucketExists_looks bucket)) fun found => ?_
  · refine idle_write (fun _ _ => ⟨rfl, fun _ => rfl⟩) fun s g hc => ?_
    refine hc.rebuild rfl rfl rfl rfl rfl hc.counts hc.placed hc.strays fun hm => ?_
    have hS := hc.strict hm
    refine ⟨hS.blocks, hS.objects, fun b cell hget => hS.usage b cell ?_⟩
    rw [OrdMap.get_erase] at hget
    split at hget
    · cases hget
    · exact hget
  · split
    · exact treeDelete_idle bucket
    · exact Idle.ret _

variable {ρ : Type} {k : RangeCheck ρ} {inlineMax : ℕ} {verifyOnRead : Bool}

theorem S3Request.idle (hparts : m.parts = true) (r : S3Request) : Idle c.stripes m (r.handle c inlineMax) := by
  refine inherits_handle inherits_idle c inlineMax r treeOpen_idle insertBucket_idle removeRow_idle dropBucket_idle
    (fun bucket key => idle_of_leak (deleteObject_ok c bucket key) fun _ _ hg => hg.1.1)
    (fun bucket key data => idle_of_leak (storeInlinedObject_ok c bucket key data) fun _ _ hg => hg.1.1)
    (fun bucket key _ _ _ _ _ pieces len _ => idle_of_leak (storeSingleObjectAndMeta_ok c bucket key pieces len)
      fun _ _ hg => hg.1) createUpload_idle
    (fun bucket key uploadId n body len md5 _ => uploadPart_idle c hparts bucket key uploadId n body len md5)
    (completeMultipartUpload_idle c hparts) (abortMultipartUpload_idle c hparts)

theorem getObjectOp_idle (check : ρ → ℕ → Option (ℕ × ℕ)) (fuel : ℕ) (bucket key : Bytes) (range : Option ρ) :
    Idle n m (getObjectOp c verifyOnRead check fuel bucket key range) := by
  have hpaths : Idle n m (getObjectPaths bucket key) := by
    refine inherits_idle.andThen (inherits_idle.andThen (treeOpen_idle bucket) fun _ =>
      inherits_idle.looks (readStore_looks _)) fun o => ?_
    split
    · exact Idle.ret _
    · exact inherits_idle.andThen (inherits_idle.looks (blockPaths_looks _)) fun _ => Idle.ret _
  refine inherits_whenBucket inherits_idle bucket (inherits_idle.bind hpaths fun r => ?_)
  split
  · exact Idle.ret _
  · exact Idle.ret _
  · split
    · exact Idle.ret _
    · exact inherits_idle.looks (serveBlocks_looks c verifyOnRead check fuel _ _ range)

/-- **Every task of the server keeps the ledger.** -/
theorem S3Task.idle (hparts : m.parts = true) (task : S3Task ρ) :
    wp (ledger c.stripes m).timed (task.prog c inlineMax verifyOnRead k) (fun _ g => g.views = 0) 0 := by
  cases task with
  | request r => exact wp_bind (wp_clocked (r.idle hparts) fun _ _ _ _ hg => hg)
  | get fuel bucket key range =>
    exact wp_bind (wp_clocked (getObjectOp_idle k.check fuel bucket key range) fun _ _ _ _ hg => hg)
  | store o => exact wp_bind (wp_timed (o.idle c hparts))

end Tasks

/-! ## What is stored is there -/

section Stored

variable {c : Config} {B : Set Bytes} {s : Store} {bucket key : Bytes} {o : Object} {chunks : List Bytes}

/-- Parts count, and every record is to decode and to be live, whatever fails. -/
def soundMode : Mode := ⟨true, true, fun _ => True⟩

theorem core_empty : Core soundMode Store.empty ⟨countedRefs Store.empty - (objectRefs Store.empty + partRefs Store.empty),
    allFiles Store.empty, 0, 0, 0⟩ := by
  have h := lossFree_empty.core ⟨rfl, rfl⟩
  exact ⟨h.counts, h.placed, h.strays, h.batches, fun _ t r hr => (by cases hr), h.pending, h.tickets,
    fun _ => ⟨nofun, nofun, nofun⟩⟩

/-- The blocks of an object are among those the objects name. -/
theorem mem_objectRefs (hget : (s.tree bucket).get key = some (.record o)) {b : BlockId} (hb : b ∈ o.blocks) :
    b ∈ objectRefs s := by
  rw [← objectRefs_take s bucket key]
  refine Multiset.mem_add.2 (.inr ?_)
  unfold heldAt OrdMap.share
  rw [hget]
  exact Multiset.mem_coe.2 hb

/-- **The chunks an object names are recorded and on disk.** -/
theorem Filed.intact (hinj : Set.InjOn c.hash B) (hfiled : Filed c B s) (hloss : LossFree s) (hstrict : Strict s)
    (hget : (s.tree bucket).get key = some (.record o)) (hblocks : o.blocks = chunks.map c.hash)
    (hB : ∀ chunk ∈ chunks, chunk ∈ B) : Intact c chunks s := by
  intro chunk hchunk
  have hnamed : c.hash chunk ∈ o.blocks := hblocks ▸ List.mem_map_of_mem hchunk
  obtain ⟨block, hblock, -⟩ := hloss.recorded _ (Multiset.mem_add.2 (.inl (mem_objectRefs hget hnamed)))
  obtain ⟨_, hrecord, hlive, -⟩ := hstrict.blocks _ _ hblock
  cases hrecord
  obtain ⟨other, hother, hsame, hsize⟩ := hfiled.blocks _ _ hblock
  cases hinj hother (hB chunk hchunk) hsame
  obtain ⟨bytes, hfile⟩ := Option.isSome_iff_exists.1 (hloss.placed _ _ hblock hlive)
  obtain ⟨hbytes, hhash⟩ := hfiled.files _ _ _ hfile
  cases hinj hbytes (hB chunk hchunk) hhash
  exact ⟨block, hblock, hsize, hfile⟩

/-- **What hashes to the address of a recorded block has its size.** -/
theorem Filed.sizesTrue (hinj : Set.InjOn c.hash B) (hfiled : Filed c B s) {paths : List (BlockId × Block)}
    (hpaths : ∀ p ∈ paths, s.blocks.get p.1 = some (.record p.2)) :
    SizesTrue c s (paths.map fun p => (toLex (p.1, diskDepth p.1 p.2.depth), p.2.size)) (paths.map Prod.fst) := by
  intro i path size content hpath hfile hid
  rw [List.getElem?_map, Option.map_eq_some_iff] at hpath hid
  obtain ⟨⟨id, block⟩, hi, heq⟩ := hpath
  obtain ⟨p, hi', hhash⟩ := hid
  cases hi.symm.trans hi'
  cases heq
  obtain ⟨chunk, hchunk, hsame, hsize⟩ := hfiled.blocks _ _ (hpaths _ (List.mem_of_getElem? hi))
  cases hinj hchunk (hfiled.files _ _ _ hfile).1 (hsame.trans hhash)
  exact hsize.symm

end Stored

/-! ## The server -/

section Server

variable {ρ : Type} {c : Config} {B : Set Bytes} {inlineMax : ℕ} {verifyOnRead : Bool} {k : RangeCheck ρ}
variable {w : Pool (Timeline Store) Choice ℕ (S3Answer ρ)}

/-- Runs from the empty store that upload chunks of `B` only, as long as no count passes what
its field can hold. -/
def ServerRun (c : Config) (B : Set Bytes) (inlineMax : ℕ) (verifyOnRead : Bool) (k : RangeCheck ρ)
    (w : Pool (Timeline Store) Choice ℕ (S3Answer ρ)) : Prop :=
  Pool.Reach (s3System c inlineMax verifyOnRead k)
    (fun w m => Feeding B m ∧ Pool.Into (s3System c inlineMax verifyOnRead k) (fun l => l.now.Fits) w m)
    (Pool.start (Timeline.start Store.empty)) w

/-- **No task, stop or crash loses a reference or a file**, and every record decodes. -/
theorem ServerRun.balanced (h : ServerRun c B inlineMax verifyOnRead k w) : LossFree w.st.now ∧ Strict w.st.now := by
  have hsurvives : (ledger c.stripes soundMode).timed.Survives (s3System c inlineMax verifyOnRead k) :=
    ⟨fun _ _ _ h => ⟨_, rfl, ledger_drop h⟩, fun _ _ _ h => ⟨_, rfl, ledger_restart h⟩⟩
  have hstart : (ledger c.stripes soundMode).timed.inv (Timeline.start Store.empty) _ :=
    ⟨core_empty, Multiset.nodup_zero, fun v hv => absurd hv (Multiset.notMem_zero v)⟩
  obtain ⟨g, hg⟩ := Pool.Reach.inv (Q := fun _ g => g.views = 0) hsurvives
    (fun _ task _ => task.idle (k := k) (m := soundMode) rfl) (fun _ _ _ _ hin hn => ⟨trivial, hin.2 _ hn⟩) rfl
    hstart h
  exact ⟨hg.1.lossFree rfl, hg.1.strict rfl⟩

theorem ServerRun.filed (hinj : Set.InjOn c.hash B) (h : ServerRun c B inlineMax verifyOnRead k w) : Filed c B w.st.now :=
  (reach_safe hinj (filed_empty c B) (h.mono fun _ _ hm => hm.1)).1

/-- **A GET of an object that stands answers what its record names.** -/
theorem ServerRun.serves (hinj : Set.InjOn c.hash B) (h : ServerRun c B inlineMax verifyOnRead k w) {bucket key : Bytes}
    {o : Object} {chunks : List Bytes} (hget : (w.st.now.tree bucket).get key = some (.record o))
    (hnames : o.Names c chunks) (hB : ∀ chunk ∈ chunks, chunk ∈ B) :
    Serves c verifyOnRead k bucket key (passes chunks) chunks.flatten w.st.now := by
  refine serves_of_intact hnames hget fun hnone => ?_
  obtain hinlined | ⟨-, hblocks⟩ := hnames.data
  · rw [hnone] at hinlined; cases hinlined
  · exact (h.filed hinj).intact hinj h.balanced.1 h.balanced.2 hget hblocks hB

/-- **A GET of an object that stands answers the body of the PUT that was acknowledged.** -/
theorem upload_served (hinj : Set.InjOn c.hash B) (h : ServerRun c B inlineMax verifyOnRead k w)
    {t : Thread (Timeline Store) Choice ℕ (S3Answer ρ)} (ht : t ∈ w.threads) {since till : ℕ} {bucket key : Bytes}
    {validClass : Bool} {md5 : Option (Option Bytes)} {pieces : List Bytes} {len : Option ℤ} {reply : S3Reply}
    (hB : ∀ chunk ∈ chunksOf pieces, chunk ∈ B)
    (hacked : t.result = some (.replied since (.putObject bucket key validClass md5 (some (pieces.map some)) len)
      (.ok reply) till)) :
    ∃ m s o, since ≤ m ∧ m ≤ till ∧ w.st.stateAt m = some s ∧ (s.tree bucket).get key = some (.record o) ∧
      ((w.st.now.tree bucket).get key = some (.record o) →
        Serves c verifyOnRead k bucket key (passes (chunksOf pieces)) pieces.flatten w.st.now) := by
  obtain ⟨m, s, o, hm, hm', hs, hget, hrecord⟩ := reach_onRecord (h.mono fun _ _ _ => trivial) ht hacked pieces rfl
  refine ⟨m, s, o, hm, hm', hs, hget, fun hstands => ?_⟩
  rw [← (chunksOf_spec pieces).2.1]
  exact h.serves hinj hstands hrecord.names hB

end Server

end QssStorage
