import QssStorage.Spec.Scrub

/-!
# fsck: the repair

`scrub/repair.rs`, `repair/plan.rs` and `repair/actions.rs`: actions are planned from a report
and from fresh walks, first those that remove holders, then everything else in one plan,
and applied in order. The outcomes an action reports, which are for the operator, are left
out: an action that is skipped or fails shows in what it did not change.
-/

namespace QssStorage.Scrub

open Conc

variable (c : Config)

/-- `RepairAction`. A path of a block file is its address and depth. -/
inductive RepairAction where
  | resumeBucketTeardown (bucket : Bytes)
  | reapOrphanPart (storageKey : Bytes) (part : MultiPart)
  | quarantineCorrupt (block : BlockId) (depth : ℕ)
  | adoptOrphan (block : BlockId) (recordDepth : ℕ) (candidates : List ℕ)
  | setRc (block : BlockId) (planned holders : ℕ)
  | markDegraded (block : BlockId)
  | deleteOrphan (block : BlockId) (depth : ℕ)
  | deleteOffDepth (block : BlockId) (depth : ℕ)
  | quarantineForeign (path : DiskPath)
deriving DecidableEq

/-! ## Primitives -/

/-- Replace the store of a volume. -/
def onStore (f : Store → Store) (v : Volume) : Volume := { v with store := f v.store }

/-- `put_block_record`. -/
def putRecord (id : BlockId) (block : Block) : Volume → Volume :=
  onStore fun s => { s with blocks := s.blocks.insert id (.record block) }

/-- `unlink_tolerant` on a block path. -/
def unlink (id : BlockId) (depth : ℕ) : Volume → Volume :=
  onStore fun s => { s with files := s.files.erase (toLex (id, depth)) }

/-- `quarantine_file` on a block path. -/
def quarantineBlock (id : BlockId) (depth : ℕ) (v : Volume) : Volume :=
  match v.store.files.get (toLex (id, depth)) with
  | some bytes => { unlink id depth v with quarantine := v.quarantine ++ [bytes] }
  | none => v

/-- `mark_degraded`. -/
def markDegraded (id : BlockId) (v : Volume) : Volume :=
  match recordOf v.store id with
  | some block => if block.degraded then v else putRecord id { block with degraded := true } v
  | none => v

/-! ## Actions -/

/-- `quarantine_corrupt`. -/
def quarantineCorrupt (id : BlockId) (depth : ℕ) (v : Volume) : Volume := markDegraded id (quarantineBlock id depth v)

/-- The candidates of an adoption in turn: one that does not hash to the address is set
aside, the first that does is adopted and the rest are unlinked. -/
def adoptFrom (id : BlockId) (record : Block) : List ℕ → Bool → Volume → Volume
  | [], quarantined, v => if quarantined then markDegraded id v else v
  | depth :: rest, quarantined, v =>
    match v.store.files.get (toLex (id, diskDepth id depth)) with
    | none => adoptFrom id record rest quarantined v
    | some bytes =>
      if c.hash bytes ≠ id then adoptFrom id record rest true (quarantineBlock id (diskDepth id depth) v)
      else rest.foldl (fun v depth => unlink id (diskDepth id depth) v) (putRecord id { record with depth := depth } v)

/-- `adopt_orphan`. -/
def adoptOrphan (id : BlockId) (candidates : List ℕ) (v : Volume) : Volume :=
  match recordOf v.store id with
  | none => v
  | some record => if isFile v.store id record.depth then v else adoptFrom c id record candidates false v

/-- `set_rc`: a block nothing holds goes, record first, then the file. -/
def setRc (id : BlockId) (holders : ℕ) (v : Volume) : Volume :=
  match recordOf v.store id with
  | none => v
  | some record =>
    if record.rc = holders then v
    else if holders = 0 then
      unlink id (diskDepth id record.depth) (onStore (fun s => { s with blocks := s.blocks.erase id }) v)
    else putRecord id { record with rc := holders } v

/-- What a path adds to the files in quarantine when it is moved there. -/
def copies : Entry → List Bytes
  | .file bytes => [bytes]
  | .directory => []
  | .special => []
  | .link _ => []

/-- `quarantine_foreign`: a link that dangles passes for gone. -/
def quarantineForeign (path : DiskPath) (v : Volume) : Volume :=
  match path with
  | .block id depth => quarantineBlock id depth v
  | .other p =>
    match v.foreign.get p with
    | some entry =>
      if entry.exists then { v with foreign := v.foreign.erase p, quarantine := v.quarantine ++ copies entry } else v
    | none => v

/-- The objects of a half-deleted bucket through the delete path, those whose key is not
UTF-8 skipped; `false` once one does not delete. -/
def deleteObjects (bucket : Bytes) : List Bytes → Store → Bool × Store
  | [], s => (true, s)
  | key :: keys, s =>
    if isUtf8 key then
      match (deleteObject c bucket key).eval steady s with
      | some (.ok _, s) => deleteObjects bucket keys s
      | some (.error _, s) => (false, s)
      | none => (false, s)
    else deleteObjects bucket keys s

/-- `drop_bucket`. -/
def dropBucket (bucket : Bytes) (s : Store) : Store :=
  { s with buckets := s.buckets.erase bucket, usage := s.usage.erase bucket, trees := s.trees.erase bucket }

/-- `resume_bucket_teardown`. -/
def resumeBucketTeardown (bucket : Bytes) (s : Store) : Store :=
  match deleteObjects c bucket (s.tree bucket).keys s with
  | (true, s) => dropBucket bucket s
  | (false, s) => s

/-- `reap_orphan_part`. -/
def reapOrphanPart (storageKey : Bytes) (s : Store) : Store :=
  match (reapPart c storageKey).eval steady s with
  | some (_, s) => s
  | none => s

/-- `RepairAction::apply`. -/
def RepairAction.apply : RepairAction → Volume → Volume
  | resumeBucketTeardown bucket => onStore (Scrub.resumeBucketTeardown c bucket)
  | reapOrphanPart storageKey _ => onStore (Scrub.reapOrphanPart c storageKey)
  | quarantineCorrupt block depth => Scrub.quarantineCorrupt block depth
  | adoptOrphan block _ candidates => Scrub.adoptOrphan c block candidates
  | setRc block _ holders => Scrub.setRc block holders
  | markDegraded block => Scrub.markDegraded block
  | deleteOrphan block depth => unlink block depth
  | deleteOffDepth block depth => unlink block depth
  | quarantineForeign path => Scrub.quarantineForeign path

/-- `RepairAction::block`: the block an action is about, when it is about one. -/
def RepairAction.block : RepairAction → Option BlockId
  | quarantineCorrupt block _ => some block
  | adoptOrphan block _ _ => some block
  | setRc block _ _ => some block
  | markDegraded block => some block
  | deleteOrphan block _ => some block
  | deleteOffDepth block _ => some block
  | resumeBucketTeardown _ => none
  | reapOrphanPart _ _ => none
  | quarantineForeign _ => none

/-- Actions in order. -/
def applyAll (actions : List RepairAction) (v : Volume) : Volume := actions.foldl (fun v a => a.apply c v) v

/-! ## Plans -/

/-- `plan_teardowns`: nothing unless the holder set was closed. -/
def planTeardowns (report : Report) (v : Volume) : Option (List RepairAction) :=
  if report.ran .bucketIntegrity then
    (strandedTrees v.store).map fun stranded =>
      if report.ran .recount then stranded.map .resumeBucketTeardown else []
  else some []

/-- `orphan_parts`: the parts whose upload record does not exist; nothing at all if a part or
an upload record does not decode. -/
def orphanParts (s : Store) : List (Bytes × Cell MultiPart) → Option (List (Bytes × MultiPart))
  | [] => some []
  | (_, .garbage) :: _ => none
  | (storageKey, .record part) :: rest =>
    match getUpload part.bucket part.key part.uploadId s with
    | .error _ => none
    | .ok none => (orphanParts s rest).map ((storageKey, part) :: ·)
    | .ok (some _) => orphanParts s rest

/-- `plan_orphan_parts`. -/
def planOrphanParts (report : Report) (v : Volume) : Option (List RepairAction) :=
  if report.ran .multipartReport then
    (orphanParts v.store v.store.parts.entries).map fun orphans =>
      if report.ran .recount then orphans.map fun o => .reapOrphanPart o.1 o.2 else []
  else some []

/-- `plan_corrupt`: the verdicts of the report on files that are still there. -/
def planCorrupt (report : Report) (disk : DiskWalk) : List RepairAction :=
  report.findings.filterMap fun finding =>
    match finding.kind, finding.block, finding.path with
    | .corruptBlock, some block, some (.block id depth) =>
      if id = block && present disk.files id depth then some (.quarantineCorrupt block depth) else none
    | _, _, _ => none

/-- Records without a file of their own that have copies elsewhere. -/
def planAdoptions (disk : DiskWalk) (s : Store) : List RepairAction :=
  (walkRecords s).filterMap fun r =>
    if r.2.degraded || isFile s r.1 r.2.depth then none
    else if (elsewhere disk r.1 r.2.depth).isEmpty then none
    else some (.adoptOrphan r.1 r.2.depth (elsewhere disk r.1 r.2.depth))

/-- Records without a file of their own that have no copy at all. -/
def planDegradings (disk : DiskWalk) (s : Store) : List RepairAction :=
  (walkRecords s).filterMap fun r =>
    if r.2.degraded || isFile s r.1 r.2.depth then none
    else if (elsewhere disk r.1 r.2.depth).isEmpty then some (.markDegraded r.1)
    else none

/-- The recount: every record whose count is not that of its holders. -/
def planRecount (expected : BlockId → ℕ) (s : Store) : List RepairAction :=
  (walkRecords s).filterMap fun r => if r.2.rc = expected r.1 then none else some (.setRc r.1 r.2.rc (expected r.1))

/-- Files nothing can reference, as the plan sees it: those without a record, and those at
another depth than their record's while a file is at that one. -/
def planDeletions (disk : DiskWalk) (s : Store) : List RepairAction :=
  disk.files.filterMap fun file =>
    match recordOf s file.id with
    | none => some (.deleteOrphan file.id file.depth)
    | some block =>
      if block.depth ≠ file.depth && present disk.files file.id block.depth then some (.deleteOffDepth file.id file.depth)
      else none

/-- `plan_repairs`, in application order; nothing if the holder set does not close for a
recount that was authorised. -/
def planRepairs (width : ℕ) (report : Report) (v : Volume) : Option (List RepairAction) :=
  let disk := walkDisk width v
  let actions (recount : List RepairAction) :=
    planCorrupt report disk ++ planAdoptions disk v.store ++ recount ++ planDegradings disk v.store ++
      planDeletions disk v.store ++ disk.foreign.map .quarantineForeign
  if report.ran .recount then (expectedCounts v.store).map fun expected => actions (planRecount expected v.store)
  else some (actions [])

/-- `repair`: the actions that remove holders come first, and everything else is planned
against the store they leave. -/
def repair (width : ℕ) (report : Report) (v : Volume) : Option Volume :=
  match planTeardowns report v with
  | none => none
  | some teardowns =>
    let v := applyAll c teardowns v
    match planOrphanParts report v with
    | none => none
    | some parts =>
      let v := applyAll c parts v
      (planRepairs width report v).map fun repairs => applyAll c repairs v

/-- `fsck --repair`, with or without `--scrub`; nothing if it could not run. -/
def fsckRepair (width : ℕ) (scrub : Bool) (v : Volume) : Option Volume :=
  match run c width scrub v with
  | none => none
  | some report => repair c width report v

/-! ## The summary -/

/-- `is_repairable`: the classes the engine claims to repair. -/
def isRepairable : FindingClass → Bool
  | .refcountOverCount => true
  | .refcountUnderCount => true
  | .orphanFile => true
  | .offDepthFile => true
  | .foreignFile => true
  | .danglingRecord => true
  | .adoptableDanglingRecord => true
  | .corruptBlock => true
  | .halfDeletedBucket => true
  | .orphanPart => true
  | .missingBlockRecord => false
  | .undecodableBlockRecord => false
  | .sizeMismatch => false
  | .degradedRecord => false
  | .multipartUpload => false
  | .holderEnumerationFailed => false
  | .postRepairRecountDirty => false

/-- `flag_unfinished`: one finding more for every class that should be gone. -/
def flagUnfinished (post : Report) : Report :=
  { post with
    findings := post.findings ++ ((post.findings.map Finding.kind).filter isRepairable).dedup.map fun _ =>
      ⟨.postRepairRecountDirty, none, none⟩ }

/-- `repair` with its summary: the volume it leaves and the report of the passes run again on it. -/
def repairSummary (width : ℕ) (scrub : Bool) (report : Report) (v : Volume) : Option (Volume × Report) :=
  match repair c width report v with
  | none => none
  | some v' => (run c width scrub v').map fun post => (v', flagUnfinished post)

/-! ## An example -/

/-- One object of three bytes in bucket `b`, its block on disk at depth 1, and what the block
database has of it. -/
def abcVolume (blocks : OrdMap BlockId (Cell Block)) : Volume where
  store := { Store.empty with
    buckets := OrdMap.insert ∅ [98] (.record (.bucket ⟨0, [98]⟩))
    trees := OrdMap.insert ∅ [98] (OrdMap.insert ∅ [107] (.record ⟨3, 0, [], .singlePart [abcId]⟩))
    blocks := blocks
    files := OrdMap.insert ∅ (toLex (abcId, 1)) abc }
  misfiled := []
  foreign := ∅
  quarantine := []

end QssStorage.Scrub
